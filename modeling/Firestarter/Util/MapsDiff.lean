import Mathlib.Data.List.Pairwise
import Firestarter.Util.ProcMaps

namespace Firestarter.Util

/-!
# Comparing two memory maps

`util_proc_maps_diff` walks the entries of its first map that overlap a range of addresses, looks
each of them up in the second map and compares the two: names, protection, sharing, ranges, and
then the bytes in the range.  Nothing walks the second map, and of a mapping that cannot be read
the bytes compared are those of a fresh buffer.

* `utilProcMapsEntryDiff`, `utilProcMapsDiff`: the two comparisons;
* `Entry.overlaps_iff`: the test on end points is an overlap, for ranges that are not empty;
* `Maps.lookup_eq_some_iff`: in a map the lookup finds the one entry around an address;
* `utilProcMapsDiff_eq_zero_iff`: a zero difference gives each entry of the first map a twin;
* `zero_diff_iff`: what more it takes for the memory to be equal.
-/

/-! ### The macros on entries -/

/-- `ULONG_MAX`. -/
def ulongMax : ℕ := 2 ^ 64 - 1

/-- The difference of two `unsigned long` values. -/
def ulongSub (a b : ℕ) : ℕ := (a + 2 ^ 64 - b) % 2 ^ 64

/-- `UTIL_PROC_MAPS_ENTRY_CONTAINS_ADDR`. -/
def Entry.containsAddr (e : Entry) (a : ℕ) : Bool := e.vmStart ≤ a && a < e.vmEnd

/-- `UTIL_PROC_MAPS_ENTRY_OVERLAPS`: one of the two contains the first or the last address of the
    other. -/
def Entry.overlaps (e e2 : Entry) : Bool :=
  e.containsAddr e2.vmStart || e.containsAddr (ulongSub e2.vmEnd 1) ||
    e2.containsAddr e.vmStart || e2.containsAddr (ulongSub e.vmEnd 1)

/-- `UTIL_PROC_MAPS_ENTRY_RANGE_EQUALS`. -/
def Entry.rangeEquals (e e2 : Entry) : Bool := e.vmStart = e2.vmStart && e.vmEnd = e2.vmEnd

/-- `UTIL_PROC_MAPS_ENTRY_PROT_EQUALS`. -/
def Entry.protEquals (e e2 : Entry) : Bool := e.r = e2.r && e.w = e2.w && e.x = e2.x

/-- `UTIL_PROC_MAPS_ENTRY_SHARED_EQUALS`. -/
def Entry.sharedEquals (e e2 : Entry) : Bool := e.s = e2.s

/-- `UTIL_PROC_MAPS_ENTRY_NAME_EQUALS`: `strcmp` on the names. -/
def Entry.nameEquals (e e2 : Entry) : Bool := e.name = e2.name

/-- `UTIL_PROC_MAPS_ENTRY_SIZE`. -/
def Entry.size (e : Entry) : ℕ := ulongSub e.vmEnd e.vmStart

/-- The entry `__IE` that `UTIL_PROC_MAPS_ITER` makes of its range.  The fields it does not
    initialise are zero. -/
def iterEntry (start stop : ℕ) : Entry where
  vmStart := start
  vmEnd := stop
  r := Char.ofNat 0
  w := Char.ofNat 0
  x := Char.ofNat 0
  s := Char.ofNat 0
  pgoff := 0
  major := 0
  minor := 0
  ino := 0
  name := []

/-- The end of a range as the functions take it: zero stands for `ULONG_MAX`. -/
def rangeEnd (stop : ℕ) : ℕ := if stop = 0 then ulongMax else stop

/-! ### Maps and processes -/

/-- `util_proc_maps_t`: the process and its entries, as `/proc/<pid>/maps` lists the mappings of an
    address space: none is empty, all end at `unsigned long` addresses, and they stand in the order
    of their addresses without overlaps. -/
structure Maps where
  pid : Int
  entries : List Entry
  nonempty : ∀ e ∈ entries, e.vmStart < e.vmEnd
  bounded : ∀ e ∈ entries, e.vmEnd < 2 ^ 64
  sorted : entries.Pairwise fun e e2 => e.vmEnd ≤ e2.vmStart

/-- One pass of the loop that reads `/proc/<pid>/mem`, other than the complete read that ends it. -/
inductive ReadTry where
  /-- `lseek64` fails. -/
  | noSeek
  /-- `read` does not return the size asked for; whether `errno` is then `EINTR`. -/
  | short (eintr : Bool)
  deriving DecidableEq, Repr

/-- What the comparison sees of the system.  The memory of the processes does not change while it
    runs, and a request is answered in the same way each time. -/
structure Host where
  /-- The process that runs the comparison. -/
  getpid : Int
  /-- The byte at an address of a process. -/
  mem : Int → ℕ → UInt8
  /-- Whether `mmap` gives a buffer of a size. -/
  mmap : ℕ → Bool
  /-- Whether `/proc/<pid>/mem` can be opened. -/
  openMem : Int → Bool
  /-- The reads of a process at an address and of a size before the first complete one. -/
  tries : Int → ℕ → ℕ → List ReadTry

/-- The loop around `lseek64` and `read`, with the value of `ret` behind it. -/
def readLoop : List ReadTry → Int
  | [] => 0
  | .noSeek :: _ => -3
  | .short true :: tries => readLoop tries
  | .short false :: _ => -4

/-- `util_proc_maps_entry_map`: the buffer with the bytes of an entry of process `pid`, by their
    offset, or the error.  An entry that is not readable keeps the zeros of the anonymous
    mapping. -/
def utilProcMapsEntryMap (host : Host) (pid : Int) (e : Entry) : Except Int (ℕ → UInt8) :=
  if !host.mmap e.size then .error (-1)
  else if e.r ≠ 'r' then .ok fun _ => 0
  else if pid = host.getpid then .ok fun i => host.mem pid (e.vmStart + i)
  else if !host.openMem pid then .error (-2)
  else
    let ret := readLoop (host.tries pid e.vmStart e.size)
    if ret = 0 then .ok fun i => host.mem pid (e.vmStart + i) else .error ret

/-- `util_proc_maps_lookup_by_addr`. -/
def utilProcMapsLookupByAddr (maps : Maps) (a : ℕ) : Option Entry :=
  maps.entries.find? (·.containsAddr a)

/-! ### The comparison -/

/-- `util_proc_maps_diff_flags_t`. -/
inductive DiffFlag where
  | allowNoEntry
  | allowNameDiff
  | allowProtDiff
  | allowSharedDiff
  | allowRangeDiff
  | allowRangeMismatch
  | allowDataDiff
  deriving DecidableEq, Repr

/-- The number of a flag in its enumeration. -/
def DiffFlag.index : DiffFlag → ℕ
  | allowNoEntry => 0
  | allowNameDiff => 1
  | allowProtDiff => 2
  | allowSharedDiff => 3
  | allowRangeDiff => 4
  | allowRangeMismatch => 5
  | allowDataDiff => 6

/-- `DIFF_FLAG(F)`. -/
def DiffFlag.mask (f : DiffFlag) : ℕ := 1 <<< f.index

/-- `flags & DIFF_FLAG(F)` as a condition. -/
def DiffFlag.isIn (f : DiffFlag) (flags : ℕ) : Bool := flags &&& f.mask ≠ 0

/-- Whether `memcmp` finds two buffers equal on their first `size` bytes. -/
def memcmpEqual (buff buff2 : ℕ → UInt8) (size : ℕ) : Bool :=
  (List.range size).all fun i => buff i = buff2 i

/-- `util_proc_maps_entry_data_diff`, for entries of the processes `pid` and `pid2`. -/
def utilProcMapsEntryDataDiff (host : Host) (pid pid2 : Int) (e e2 : Entry)
    (off off2 size : ℕ) : Int :=
  if e.size < (size + off) % 2 ^ 64 ∨ e2.size < (size + off2) % 2 ^ 64 then -1
  else
    match utilProcMapsEntryMap host pid e with
    | .error _ => -2
    | .ok buff =>
      match utilProcMapsEntryMap host pid2 e2 with
      | .error _ => -3
      | .ok buff2 =>
        if memcmpEqual (fun i => buff (off + i)) (fun i => buff2 (off2 + i)) size then 0 else 1

/-- `util_proc_maps_entry_diff` behind its test for null pointers. -/
def entryDiff (host : Host) (pid pid2 : Int) (e e2 : Entry) (start stop flags : ℕ) : Int :=
  if !e.nameEquals e2 && !DiffFlag.allowNameDiff.isIn flags then DiffFlag.allowNameDiff.mask
  else if !e.protEquals e2 && !DiffFlag.allowProtDiff.isIn flags then DiffFlag.allowProtDiff.mask
  else if !e.sharedEquals e2 && !DiffFlag.allowSharedDiff.isIn flags then
    DiffFlag.allowSharedDiff.mask
  else if !e.overlaps e2 then
    if DiffFlag.allowRangeMismatch.isIn flags then 0 else DiffFlag.allowRangeMismatch.mask
  else if !e.rangeEquals e2 && !DiffFlag.allowRangeDiff.isIn flags then
    DiffFlag.allowRangeDiff.mask
  else
    let start := max (max start e.vmStart) e2.vmStart
    let stop := min (min stop e.vmEnd) e2.vmEnd
    if stop ≤ start then -11
    else if DiffFlag.allowDataDiff.isIn flags then 0
    else utilProcMapsEntryDataDiff host pid pid2 e e2 (ulongSub start e.vmStart)
      (ulongSub start e2.vmStart) (ulongSub stop start)

/-- `util_proc_maps_entry_diff`.  The pointers may be null, and an end of zero is `ULONG_MAX`. -/
def utilProcMapsEntryDiff (host : Host) (pid pid2 : Int) (e e2 : Option Entry)
    (start stop flags : ℕ) : Int :=
  match e, e2 with
  | some e, some e2 => entryDiff host pid pid2 e e2 start (rangeEnd stop) flags
  | _, _ => if DiffFlag.allowNoEntry.isIn flags then 0 else DiffFlag.allowNoEntry.mask

/-- A callback of type `util_proc_maps_diff_cb_t`, which may change what `cb_args` points to. -/
abbrev DiffCb (σ : Type) := Entry → Option Entry → Int → σ → Int × σ

variable {σ : Type}

/-- The entry `entry2` of the second map that an entry is compared with: the one around the first
    address they could share, or else the one around the end. -/
def counterpart (maps2 : Maps) (start stop : ℕ) (e : Entry) : Option Entry :=
  match utilProcMapsLookupByAddr maps2 (max start e.vmStart) with
  | some e2 => some e2
  | none => utilProcMapsLookupByAddr maps2 (min stop e.vmEnd)

/-- The result of `util_proc_maps_entry_diff` for one entry of the walk. -/
def stepDiff (host : Host) (pid : Int) (maps2 : Maps) (start stop flags : ℕ) (e : Entry) : Int :=
  utilProcMapsEntryDiff host pid maps2.pid (some e) (counterpart maps2 start stop e)
    (max start e.vmStart) (min stop e.vmEnd) flags

/-- The loop of `util_proc_maps_diff`, over the entries left and with the value of `hasdiff`. -/
def diffLoop (host : Host) (pid : Int) (maps2 : Maps) (start stop flags : ℕ)
    (cb : Option (DiffCb σ)) : List Entry → Int → σ → Int × σ
  | [], hasdiff, args => (hasdiff, args)
  | e :: es, hasdiff, args =>
    if e.overlaps (iterEntry start stop) then
      let ret := stepDiff host pid maps2 start stop flags e
      match cb with
      | none =>
        if ret ≠ 0 then (ret, args)
        else diffLoop host pid maps2 start stop flags cb es hasdiff args
      | some f =>
        let (ret, args) := f e (counterpart maps2 start stop e) ret args
        if ret < 0 then (ret, args)
        else diffLoop host pid maps2 start stop flags cb es (if 0 < ret then 1 else hasdiff) args
    else diffLoop host pid maps2 start stop flags cb es hasdiff args

/-- `util_proc_maps_diff`: its result, and what the callback made of its argument. -/
def utilProcMapsDiff (host : Host) (maps maps2 : Maps) (start stop : UInt64) (flags : ℕ)
    (cb : Option (DiffCb σ)) (args : σ) : Int × σ :=
  diffLoop host maps.pid maps2 start.toNat (rangeEnd stop.toNat) flags cb maps.entries 0 args

/-! ### Ranges -/

theorem ulongSub_of_le {a b : ℕ} (h : b ≤ a) (ha : a < 2 ^ 64) : ulongSub a b = a - b := by
  unfold ulongSub
  omega

theorem rangeEnd_pos (stop : ℕ) : 0 < rangeEnd stop := by
  unfold rangeEnd ulongMax
  split <;> omega

theorem rangeEnd_of_pos {stop : ℕ} (h : 0 < stop) : rangeEnd stop = stop :=
  if_neg (by omega)

theorem rangeEnd_lt (stop : UInt64) : rangeEnd stop.toNat < 2 ^ 64 := by
  have := stop.toNat_lt
  unfold rangeEnd ulongMax
  split <;> omega

@[simp] theorem Entry.containsAddr_iff {e : Entry} {a : ℕ} :
    e.containsAddr a = true ↔ e.vmStart ≤ a ∧ a < e.vmEnd := by
  simp [Entry.containsAddr]

/-- **The test on end points.** For ranges that are not empty it says that they share an
    address. -/
theorem Entry.overlaps_iff {e e2 : Entry} (he : e.vmStart < e.vmEnd) (hb : e.vmEnd < 2 ^ 64)
    (he2 : e2.vmStart < e2.vmEnd) (hb2 : e2.vmEnd < 2 ^ 64) :
    e.overlaps e2 = true ↔ e.vmStart < e2.vmEnd ∧ e2.vmStart < e.vmEnd := by
  have hlast : ulongSub e.vmEnd 1 = e.vmEnd - 1 := ulongSub_of_le (by omega) hb
  have hlast2 : ulongSub e2.vmEnd 1 = e2.vmEnd - 1 := ulongSub_of_le (by omega) hb2
  simp only [Entry.overlaps, Bool.or_eq_true, Entry.containsAddr_iff, hlast, hlast2]
  omega

/-- Overlapping depends on the ranges alone. -/
theorem Entry.overlaps_congr {e e' : Entry} (hstart : e'.vmStart = e.vmStart)
    (hend : e'.vmEnd = e.vmEnd) (e2 : Entry) : e'.overlaps e2 = e.overlaps e2 := by
  simp only [Entry.overlaps, Entry.containsAddr, hstart, hend]

namespace Maps

variable {maps maps2 : Maps} {e e2 : Entry} {a : ℕ}

/-- Of two entries of a map one ends before the other starts. -/
theorem apart (he : e ∈ maps.entries) (he2 : e2 ∈ maps.entries) (hne : e ≠ e2) :
    e.vmEnd ≤ e2.vmStart ∨ e2.vmEnd ≤ e.vmStart := by
  have hs : maps.entries.Pairwise fun e e2 => e.vmEnd ≤ e2.vmStart ∨ e2.vmEnd ≤ e.vmStart :=
    maps.sorted.imp Or.inl
  have : Std.Symm fun e e2 : Entry => e.vmEnd ≤ e2.vmStart ∨ e2.vmEnd ≤ e.vmStart :=
    ⟨fun _ _ => Or.symm⟩
  exact hs.forall he he2 hne

/-- Two entries of a map that overlap are the same entry. -/
theorem eq_of_overlaps (he : e ∈ maps.entries) (he2 : e2 ∈ maps.entries)
    (h : e.overlaps e2 = true) : e = e2 := by
  rw [Entry.overlaps_iff (maps.nonempty e he) (maps.bounded e he) (maps.nonempty e2 he2)
    (maps.bounded e2 he2)] at h
  by_contra hne
  have := apart he he2 hne
  omega

/-- What the lookup finds is an entry around the address. -/
theorem of_lookup_eq_some (h : utilProcMapsLookupByAddr maps a = some e) :
    e ∈ maps.entries ∧ e.containsAddr a = true := by
  unfold utilProcMapsLookupByAddr at h
  have ha := List.find?_some h
  exact ⟨List.mem_of_find?_eq_some h, ha⟩

/-- **The lookup in a map.** It finds the entry around the address, and no other. -/
theorem lookup_eq_some_iff :
    utilProcMapsLookupByAddr maps a = some e ↔ e ∈ maps.entries ∧ e.containsAddr a = true := by
  constructor
  · exact of_lookup_eq_some
  · rintro ⟨he, ha⟩
    obtain ⟨e', h'⟩ : ∃ e', utilProcMapsLookupByAddr maps a = some e' := by
      rw [← Option.isSome_iff_exists]
      exact List.find?_isSome.2 ⟨e, he, ha⟩
    obtain ⟨he', ha'⟩ := of_lookup_eq_some h'
    rw [h']
    by_contra hne
    have hapart := apart he he' fun heq => hne (by rw [heq])
    rw [Entry.containsAddr_iff] at ha ha'
    omega

end Maps

/-! ### The comparison of two entries -/

section Compare

variable {host : Host} {pid pid2 : Int} {e e2 : Entry} {start stop : ℕ}

/-- The bytes of a buffer that `util_proc_maps_entry_map` fills. -/
def bytesSeen (host : Host) (pid : Int) (e : Entry) (i : ℕ) : UInt8 :=
  if e.r = 'r' then host.mem pid (e.vmStart + i) else 0

/-- Whether `util_proc_maps_entry_map` succeeds on an entry. -/
def Mappable (host : Host) (pid : Int) (e : Entry) : Prop :=
  utilProcMapsEntryMap host pid e = .ok (bytesSeen host pid e)

/-- A buffer, once filled, has the bytes of the entry if it is readable and zeros otherwise. -/
theorem mappable_of_ok {buff : ℕ → UInt8} (h : utilProcMapsEntryMap host pid e = .ok buff) :
    Mappable host pid e := by
  rw [Mappable, h]
  congr 1
  ext i : 1
  simp only [utilProcMapsEntryMap] at h
  unfold bytesSeen
  split_ifs at h with hmmap hr hpid hopen hret <;> cases h
  · rw [if_neg hr]
  · rw [if_pos (not_not.1 hr)]
  · rw [if_pos (not_not.1 hr)]

/-- **Twins.** What a zero difference says of an entry of the first map and one of the second: they
    are alike, overlap the range, could be read, and show the same bytes there. -/
structure Twin (host : Host) (pid pid2 : Int) (start stop : ℕ) (e e2 : Entry) : Prop where
  vmStart : e2.vmStart = e.vmStart
  vmEnd : e2.vmEnd = e.vmEnd
  name : e2.name = e.name
  r : e2.r = e.r
  w : e2.w = e.w
  x : e2.x = e.x
  s : e2.s = e.s
  meets : max start e.vmStart < min stop e.vmEnd
  mappable : Mappable host pid e
  mappable2 : Mappable host pid2 e2
  bytes : e.r = 'r' → ∀ a, start ≤ a → a < stop → e.containsAddr a = true →
    host.mem pid a = host.mem pid2 a

/-- Being twins does not depend on which map comes first. -/
theorem Twin.symm (h : Twin host pid pid2 start stop e e2) :
    Twin host pid2 pid start stop e2 e where
  vmStart := h.vmStart.symm
  vmEnd := h.vmEnd.symm
  name := h.name.symm
  r := h.r.symm
  w := h.w.symm
  x := h.x.symm
  s := h.s.symm
  meets := by
    rw [h.vmStart, h.vmEnd]
    exact h.meets
  mappable := h.mappable2
  mappable2 := h.mappable
  bytes := by
    intro hr a hstart hstop ha
    rw [Entry.containsAddr, h.vmStart, h.vmEnd] at ha
    exact (h.bytes (h.r ▸ hr) a hstart hstop ha).symm

theorem memcmpEqual_iff {buff buff2 : ℕ → UInt8} {size : ℕ} :
    memcmpEqual buff buff2 size = true ↔ ∀ i < size, buff i = buff2 i := by
  simp [memcmpEqual]

/-- **The bytes compared.** A zero difference means that both entries could be mapped and their
    buffers agree. -/
theorem dataDiff_eq_zero_iff {off off2 size : ℕ} (h : size + off ≤ e.size)
    (h2 : size + off2 ≤ e2.size) :
    utilProcMapsEntryDataDiff host pid pid2 e e2 off off2 size = 0 ↔
      Mappable host pid e ∧ Mappable host pid2 e2 ∧
        ∀ i < size, bytesSeen host pid e (off + i) = bytesSeen host pid2 e2 (off2 + i) := by
  have hmod := Nat.mod_le (size + off) (2 ^ 64)
  have hmod2 := Nat.mod_le (size + off2) (2 ^ 64)
  unfold utilProcMapsEntryDataDiff
  rw [if_neg (by omega)]
  cases hm : utilProcMapsEntryMap host pid e with
  | error ret => simp [Mappable, hm]
  | ok buff =>
    have hmap := mappable_of_ok hm
    obtain rfl : buff = bytesSeen host pid e := by simpa [Mappable, hm] using hmap
    cases hm2 : utilProcMapsEntryMap host pid2 e2 with
    | error ret => simp [Mappable, hm2]
    | ok buff2 =>
      have hmap2 := mappable_of_ok hm2
      obtain rfl : buff2 = bytesSeen host pid2 e2 := by simpa [Mappable, hm2] using hmap2
      simp [hmap, hmap2, ← memcmpEqual_iff]

@[simp] theorem DiffFlag.isIn_zero (f : DiffFlag) : f.isIn 0 = false := by
  simp [DiffFlag.isIn]

@[simp] theorem DiffFlag.mask_ne_zero (f : DiffFlag) : f.mask ≠ 0 := by
  cases f <;> decide

/-- The chain of tests without flags: all of them have to pass. -/
theorem entryDiff_eq_zero_iff_tests :
    entryDiff host pid pid2 e e2 start stop 0 = 0 ↔
      e.nameEquals e2 = true ∧ e.protEquals e2 = true ∧ e.sharedEquals e2 = true ∧
        e.overlaps e2 = true ∧ e.rangeEquals e2 = true ∧
        max (max start e.vmStart) e2.vmStart < min (min stop e.vmEnd) e2.vmEnd ∧
        utilProcMapsEntryDataDiff host pid pid2 e e2
          (ulongSub (max (max start e.vmStart) e2.vmStart) e.vmStart)
          (ulongSub (max (max start e.vmStart) e2.vmStart) e2.vmStart)
          (ulongSub (min (min stop e.vmEnd) e2.vmEnd) (max (max start e.vmStart) e2.vmStart))
            = 0 := by
  unfold entryDiff
  cases e.nameEquals e2 <;> cases e.protEquals e2 <;> cases e.sharedEquals e2 <;>
    cases e.overlaps e2 <;> cases e.rangeEquals e2 <;> simp
  split_ifs with hle <;> simp <;> omega

/-- The bytes that two readable entries with one range have in common, by their address. -/
theorem bytesSeen_eq_iff {lo hi : ℕ} (hstart : e2.vmStart = e.vmStart) (hr : e2.r = e.r)
    (hlo : e.vmStart ≤ lo) :
    (∀ i < hi - lo, bytesSeen host pid e (lo - e.vmStart + i) =
        bytesSeen host pid2 e2 (lo - e2.vmStart + i)) ↔
      (e.r = 'r' → ∀ a, lo ≤ a → a < hi → host.mem pid a = host.mem pid2 a) := by
  unfold bytesSeen
  rw [hstart, hr]
  by_cases hread : e.r = 'r'
  · simp only [hread, true_imp_iff]
    constructor
    · intro h a ha hhi
      have hi := h (a - lo) (by omega)
      rwa [show e.vmStart + (lo - e.vmStart + (a - lo)) = a from by omega] at hi
    · intro h i hi
      exact h _ (by omega) (by omega)
  · simp [hread]

/-- The comparison of the bytes, for two entries with one range: the offsets and the size are those
    of the part of the range they lie in. -/
theorem dataDiff_eq_zero_iff_bytes (hb : e.vmEnd < 2 ^ 64) (hstart : e2.vmStart = e.vmStart)
    (hend : e2.vmEnd = e.vmEnd) (hr : e2.r = e.r)
    (hmeets : max start e.vmStart < min stop e.vmEnd) :
    utilProcMapsEntryDataDiff host pid pid2 e e2 (ulongSub (max start e.vmStart) e.vmStart)
        (ulongSub (max start e.vmStart) e2.vmStart)
        (ulongSub (min stop e.vmEnd) (max start e.vmStart)) = 0 ↔
      Mappable host pid e ∧ Mappable host pid2 e2 ∧
        (e.r = 'r' → ∀ a, max start e.vmStart ≤ a → a < min stop e.vmEnd →
          host.mem pid a = host.mem pid2 a) := by
  have hlo : e.vmStart ≤ max start e.vmStart := le_max_right _ _
  have hhi : min stop e.vmEnd ≤ e.vmEnd := min_le_right _ _
  generalize max start e.vmStart = lo at *
  generalize min stop e.vmEnd = hi at *
  have hlt : lo < 2 ^ 64 := by omega
  rw [ulongSub_of_le hlo hlt, ulongSub_of_le (hstart ▸ hlo) hlt,
    ulongSub_of_le hmeets.le (by omega), ← bytesSeen_eq_iff hstart hr hlo]
  have hsize : e.size = e.vmEnd - e.vmStart := ulongSub_of_le (by omega) hb
  have hsize2 : e2.size = e.vmEnd - e.vmStart := by
    rw [Entry.size, hstart, hend]
    exact hsize
  exact dataDiff_eq_zero_iff (by omega) (by omega)

/-- Without flags only twins compare as equal. -/
theorem entryDiff_eq_zero_iff (hb : e.vmEnd < 2 ^ 64) :
    entryDiff host pid pid2 e e2 start stop 0 = 0 ↔ Twin host pid pid2 start stop e e2 := by
  rw [entryDiff_eq_zero_iff_tests]
  simp only [Entry.nameEquals, Entry.protEquals, Entry.sharedEquals, Entry.rangeEquals,
    Bool.and_eq_true, decide_eq_true_eq]
  constructor
  · rintro ⟨hname, ⟨⟨hr, hw⟩, hx⟩, hs, -, ⟨hstart, hend⟩, hmeets, hdata⟩
    -- With equal ranges the bounds of the second entry add nothing.
    rw [← hstart, max_assoc, max_self, ← hend, min_assoc, min_self] at hmeets
    rw [max_eq_left (hstart ▸ le_max_right start e.vmStart),
      min_eq_left (hend ▸ min_le_right stop e.vmEnd),
      dataDiff_eq_zero_iff_bytes hb hstart.symm hend.symm hr.symm hmeets] at hdata
    obtain ⟨hmap, hmap2, hbytes⟩ := hdata
    refine ⟨hstart.symm, hend.symm, hname.symm, hr.symm, hw.symm, hx.symm, hs.symm, hmeets, hmap,
      hmap2, ?_⟩
    intro hread a hlo hhi ha
    rw [Entry.containsAddr_iff] at ha
    exact hbytes hread a (max_le hlo ha.1) (lt_min hhi ha.2)
  · intro h
    have hmeets := h.meets
    have hne : e.vmStart < e.vmEnd := by omega
    have hoverlaps : e.overlaps e2 = true := by
      rw [Entry.overlaps_iff hne hb (by rw [h.vmStart, h.vmEnd]; exact hne) (h.vmEnd ▸ hb),
        h.vmStart, h.vmEnd]
      exact ⟨hne, hne⟩
    have hlo : max (max start e.vmStart) e2.vmStart = max start e.vmStart :=
      max_eq_left (h.vmStart ▸ le_max_right start e.vmStart)
    have hhi : min (min stop e.vmEnd) e2.vmEnd = min stop e.vmEnd :=
      min_eq_left (h.vmEnd ▸ min_le_right stop e.vmEnd)
    refine ⟨h.name.symm, ⟨⟨h.r.symm, h.w.symm⟩, h.x.symm⟩, h.s.symm, hoverlaps,
      ⟨h.vmStart.symm, h.vmEnd.symm⟩, by rwa [hlo, hhi], ?_⟩
    rw [hlo, hhi, dataDiff_eq_zero_iff_bytes hb h.vmStart h.vmEnd h.r hmeets]
    refine ⟨h.mappable, h.mappable2, ?_⟩
    intro hread a ha hb
    rw [Nat.max_le] at ha
    rw [Nat.lt_min] at hb
    exact h.bytes hread a ha.1 hb.1 (Entry.containsAddr_iff.2 ⟨ha.2, hb.2⟩)

/-- Cutting the range down to the entry leaves its twins. -/
theorem twin_cut_iff :
    Twin host pid pid2 (max start e.vmStart) (min stop e.vmEnd) e e2 ↔
      Twin host pid pid2 start stop e e2 := by
  constructor
  · intro h
    have hmeets := h.meets
    refine { h with meets := by omega, bytes := ?_ }
    intro hr a hstart hstop ha
    have hin := Entry.containsAddr_iff.1 ha
    exact h.bytes hr a (by omega) (by omega) ha
  · intro h
    have hmeets := h.meets
    refine { h with meets := by omega, bytes := ?_ }
    intro hr a hstart hstop ha
    exact h.bytes hr a (by omega) (by omega) ha

end Compare

/-! ### The walk over the first map -/

section Walk

variable {host : Host} {maps maps2 : Maps} {e : Entry} {start stop : ℕ}

/-- The counterpart of an entry is an entry of the second map. -/
theorem mem_of_counterpart {e2 : Entry} (h : counterpart maps2 start stop e = some e2) :
    e2 ∈ maps2.entries := by
  unfold counterpart at h
  split at h
  case h_1 e' hlookup =>
    cases h
    exact (Maps.of_lookup_eq_some hlookup).1
  case h_2 => exact (Maps.of_lookup_eq_some h).1

/-- The entry around the first address is the counterpart. -/
theorem counterpart_eq_some {e2 : Entry} (he2 : e2 ∈ maps2.entries)
    (h : e2.containsAddr (max start e.vmStart) = true) :
    counterpart maps2 start stop e = some e2 := by
  unfold counterpart
  rw [Maps.lookup_eq_some_iff.2 ⟨he2, h⟩]

/-- **One entry of the walk.** It compares as equal exactly if the second map has a twin of it.  An
    entry found at the end of the range only is never one: it would contain the start as well. -/
theorem stepDiff_eq_zero_iff (he : e ∈ maps.entries) (hstop : 0 < stop) :
    stepDiff host maps.pid maps2 start stop 0 e = 0 ↔
      ∃ e2 ∈ maps2.entries, Twin host maps.pid maps2.pid start stop e e2 := by
  have hb := maps.bounded e he
  have hne := maps.nonempty e he
  have hend : rangeEnd (min stop e.vmEnd) = min stop e.vmEnd := rangeEnd_of_pos (by omega)
  unfold stepDiff
  constructor
  · intro h
    cases hc : counterpart maps2 start stop e with
    | none => simp [hc, utilProcMapsEntryDiff] at h
    | some e2 =>
      rw [hc, utilProcMapsEntryDiff, hend, entryDiff_eq_zero_iff hb, twin_cut_iff] at h
      exact ⟨e2, mem_of_counterpart hc, h⟩
  · rintro ⟨e2, he2, htwin⟩
    have hmeets := htwin.meets
    have hfirst : e2.containsAddr (max start e.vmStart) = true := by
      rw [Entry.containsAddr_iff, htwin.vmStart, htwin.vmEnd]
      omega
    rw [counterpart_eq_some he2 hfirst, utilProcMapsEntryDiff, hend, entryDiff_eq_zero_iff hb,
      twin_cut_iff]
    exact htwin

/-- **Without a callback** the walk gives zero exactly if every entry it compares does. -/
theorem diffLoop_none_eq_zero_iff (args : σ) (es : List Entry) :
    (diffLoop host maps.pid maps2 start stop 0 none es 0 args).1 = 0 ↔
      ∀ e ∈ es, e.overlaps (iterEntry start stop) = true →
        stepDiff host maps.pid maps2 start stop 0 e = 0 := by
  induction es with
  | nil => simp [diffLoop]
  | cons e es ih =>
    rw [List.forall_mem_cons, ← ih]
    by_cases ho : e.overlaps (iterEntry start stop) = true
    · by_cases hd : stepDiff host maps.pid maps2 start stop 0 e = 0
      · simp [diffLoop, ho, hd]
      · simp [diffLoop, ho, hd]
    · simp [diffLoop, ho]

/-- **A zero difference**, without flags and callback, gives each entry of the first map that
    overlaps the range a twin in the second. -/
theorem utilProcMapsDiff_eq_zero_iff (args : σ) (start stop : UInt64) :
    (utilProcMapsDiff host maps maps2 start stop 0 none args).1 = 0 ↔
      ∀ e ∈ maps.entries, e.overlaps (iterEntry start.toNat (rangeEnd stop.toNat)) = true →
        ∃ e2 ∈ maps2.entries,
          Twin host maps.pid maps2.pid start.toNat (rangeEnd stop.toNat) e e2 := by
  unfold utilProcMapsDiff
  rw [diffLoop_none_eq_zero_iff]
  refine forall₂_congr fun e he => ?_
  rw [stepDiff_eq_zero_iff he (rangeEnd_pos _)]

end Walk

/-! ### Equal memory -/

/-- An address that both maps list, with the same name, protection and sharing, and that holds the
    same byte in both processes. -/
def SameAt (host : Host) (maps maps2 : Maps) (a : ℕ) : Prop :=
  ∃ e e2, utilProcMapsLookupByAddr maps a = some e ∧ utilProcMapsLookupByAddr maps2 a = some e2 ∧
    e2.name = e.name ∧ (e2.r = e.r ∧ e2.w = e.w ∧ e2.x = e.x) ∧ e2.s = e.s ∧
    host.mem maps.pid a = host.mem maps2.pid a

/-- Every address of the range that one of the maps lists is the same in both. -/
def SameMemory (host : Host) (maps maps2 : Maps) (start stop : UInt64) : Prop :=
  ∀ a, start.toNat ≤ a → a < rangeEnd stop.toNat →
    (utilProcMapsLookupByAddr maps a).isSome ∨ (utilProcMapsLookupByAddr maps2 a).isSome →
    SameAt host maps maps2 a

/-- Each entry of the second map that overlaps the range overlaps one of the first that does. -/
def Covers (maps maps2 : Maps) (start stop : UInt64) : Prop :=
  ∀ e2 ∈ maps2.entries, e2.overlaps (iterEntry start.toNat (rangeEnd stop.toNat)) = true →
    ∃ e ∈ maps.entries, e.overlaps (iterEntry start.toNat (rangeEnd stop.toNat)) = true ∧
      e.overlaps e2 = true

/-- The two processes hold the same bytes where a mapping of the first cannot be read. -/
def UnreadableSame (host : Host) (maps maps2 : Maps) (start stop : UInt64) : Prop :=
  ∀ e ∈ maps.entries, e.r ≠ 'r' → ∀ a, start.toNat ≤ a → a < rangeEnd stop.toNat →
    e.containsAddr a = true → host.mem maps.pid a = host.mem maps2.pid a

section Equal

variable {host : Host} {maps maps2 : Maps} {start stop : UInt64}

/-- An entry around an address of the range overlaps the range. -/
theorem overlaps_range {e : Entry} {a : ℕ} (he : e ∈ maps.entries) (hstart : start.toNat ≤ a)
    (hstop : a < rangeEnd stop.toNat) (ha : e.containsAddr a = true) :
    e.overlaps (iterEntry start.toNat (rangeEnd stop.toNat)) = true := by
  have hrange : (iterEntry start.toNat (rangeEnd stop.toNat)).vmStart
      < (iterEntry start.toNat (rangeEnd stop.toNat)).vmEnd := by
    show start.toNat < rangeEnd stop.toNat
    omega
  rw [Entry.overlaps_iff (maps.nonempty e he) (maps.bounded e he) hrange (rangeEnd_lt stop)]
  rw [Entry.containsAddr_iff] at ha
  show e.vmStart < rangeEnd stop.toNat ∧ start.toNat < e.vmEnd
  omega

/-- A twin contains the addresses of the entry. -/
theorem Twin.containsAddr {pid pid2 : Int} {lo hi : ℕ} {e e2 : Entry}
    (h : Twin host pid pid2 lo hi e e2) (a : ℕ) : e2.containsAddr a = e.containsAddr a := by
  rw [Entry.containsAddr, h.vmStart, h.vmEnd, Entry.containsAddr]

/-- If the swapped comparison gives zero too, the second map has no entry of its own. -/
theorem covers_of_swapped {args : σ}
    (h : (utilProcMapsDiff host maps2 maps start stop 0 none args).1 = 0) :
    Covers maps maps2 start stop := by
  rw [utilProcMapsDiff_eq_zero_iff] at h
  intro e2 he2 hover
  obtain ⟨e, he, htwin⟩ := h e2 he2 hover
  refine ⟨e, he, ?_, ?_⟩
  · rwa [Entry.overlaps_congr htwin.vmStart htwin.vmEnd]
  · rw [Entry.overlaps_congr htwin.vmStart htwin.vmEnd,
      Entry.overlaps_iff (maps2.nonempty e2 he2) (maps2.bounded e2 he2) (maps2.nonempty e2 he2)
        (maps2.bounded e2 he2)]
    exact ⟨maps2.nonempty e2 he2, maps2.nonempty e2 he2⟩

/-- If the second map has no entry of its own, the swapped comparison gives zero too. -/
theorem swapped_of_covers {args : σ}
    (h : (utilProcMapsDiff host maps maps2 start stop 0 none args).1 = 0)
    (hcov : Covers maps maps2 start stop) :
    (utilProcMapsDiff host maps2 maps start stop 0 none args).1 = 0 := by
  rw [utilProcMapsDiff_eq_zero_iff] at h ⊢
  intro e2 he2 hover
  obtain ⟨e, he, hrange, hmeet⟩ := hcov e2 he2 hover
  obtain ⟨e2', he2', htwin⟩ := h e he hrange
  -- The twin of `e` overlaps what `e` overlaps, so it is `e2`.
  have hmeet' : e2'.overlaps e2 = true := by
    rwa [Entry.overlaps_congr htwin.vmStart htwin.vmEnd]
  obtain rfl := Maps.eq_of_overlaps he2' he2 hmeet'
  exact ⟨e, he, htwin.symm⟩

/-- At an address that an entry of the first map contains, its twin tells the rest. -/
theorem sameAt_of_twin {e e2 : Entry} {a : ℕ} (he : e ∈ maps.entries) (he2 : e2 ∈ maps2.entries)
    (htwin : Twin host maps.pid maps2.pid start.toNat (rangeEnd stop.toNat) e e2)
    (hhid : UnreadableSame host maps maps2 start stop) (hstart : start.toNat ≤ a)
    (hstop : a < rangeEnd stop.toNat) (ha : e.containsAddr a = true) :
    SameAt host maps maps2 a := by
  have ha2 : e2.containsAddr a = true := by rwa [htwin.containsAddr]
  refine ⟨e, e2, Maps.lookup_eq_some_iff.2 ⟨he, ha⟩, Maps.lookup_eq_some_iff.2 ⟨he2, ha2⟩,
    htwin.name, ⟨htwin.r, htwin.w, htwin.x⟩, htwin.s, ?_⟩
  by_cases hr : e.r = 'r'
  · exact htwin.bytes hr a hstart hstop ha
  · exact hhid e he hr a hstart hstop ha

/-- With no entry of its own in the second map, and the same bytes where nothing was read, a zero
    difference means equal memory. -/
theorem sameMemory_of_covers {args : σ}
    (h : (utilProcMapsDiff host maps maps2 start stop 0 none args).1 = 0)
    (hcov : Covers maps maps2 start stop) (hhid : UnreadableSame host maps maps2 start stop) :
    SameMemory host maps maps2 start stop := by
  have hswap := swapped_of_covers h hcov
  rw [utilProcMapsDiff_eq_zero_iff] at h hswap
  intro a hstart hstop hmapped
  rcases hmapped with hmapped | hmapped
  · obtain ⟨e, hlookup⟩ := Option.isSome_iff_exists.1 hmapped
    obtain ⟨he, ha⟩ := Maps.of_lookup_eq_some hlookup
    obtain ⟨e2, he2, htwin⟩ := h e he (overlaps_range he hstart hstop ha)
    exact sameAt_of_twin he he2 htwin hhid hstart hstop ha
  · obtain ⟨e2, hlookup⟩ := Option.isSome_iff_exists.1 hmapped
    obtain ⟨he2, ha2⟩ := Maps.of_lookup_eq_some hlookup
    obtain ⟨e, he, htwin⟩ := hswap e2 he2 (overlaps_range he2 hstart hstop ha2)
    have ha : e.containsAddr a = true := by rwa [htwin.containsAddr]
    exact sameAt_of_twin he he2 htwin.symm hhid hstart hstop ha

/-- Equal memory is equal where it was not read. -/
theorem unreadableSame_of_sameMemory (h : SameMemory host maps maps2 start stop) :
    UnreadableSame host maps maps2 start stop := by
  intro e he hr a hstart hstop ha
  have hlookup : utilProcMapsLookupByAddr maps a = some e := Maps.lookup_eq_some_iff.2 ⟨he, ha⟩
  have hmapped : (utilProcMapsLookupByAddr maps a).isSome := by rw [hlookup]; rfl
  obtain ⟨_, _, _, _, _, _, _, hbyte⟩ := h a hstart hstop (.inl hmapped)
  exact hbyte

/-- **What a zero difference means.** Where the comparison of two maps over a range gives zero, the
    memory is equal and the swapped comparison gives zero as well if and only if each entry of the
    second map that overlaps the range meets one of the first, and the processes agree on what the
    unreadable mappings hold. -/
theorem zero_diff_iff (host : Host) (maps maps2 : Maps) (start stop : UInt64) (args : σ)
    (h : (utilProcMapsDiff host maps maps2 start stop 0 none args).1 = 0) :
    (SameMemory host maps maps2 start stop ∧
        (utilProcMapsDiff host maps2 maps start stop 0 none args).1 = 0) ↔
      Covers maps maps2 start stop ∧ UnreadableSame host maps maps2 start stop := by
  constructor
  · rintro ⟨hsame, hswap⟩
    exact ⟨covers_of_swapped hswap, unreadableSame_of_sameMemory hsame⟩
  · rintro ⟨hcov, hhid⟩
    exact ⟨sameMemory_of_covers h hcov hhid, swapped_of_covers h hcov⟩

/-- A mapping of two bytes with a protection. -/
def twoBytes (r w : Char) : Entry where
  vmStart := 16
  vmEnd := 18
  r := r
  w := w
  x := '-'
  s := 'p'
  pgoff := 0
  major := 0
  minor := 0
  ino := 0
  name := []

/-- The map of a process with one such mapping. -/
def twoBytesMap (pid : Int) (r w : Char) : Maps where
  pid := pid
  entries := [twoBytes r w]
  nonempty := by simp [twoBytes]
  bounded := by simp [twoBytes]
  sorted := by simp

/-- The map of a process without mappings. -/
def noMap (pid : Int) : Maps where
  pid := pid
  entries := []
  nonempty := by simp
  bounded := by simp
  sorted := by simp

/-- Process 1 compares, with every request granted after one interrupted read. -/
def grantingHost (mem : Int → ℕ → UInt8) : Host where
  getpid := 1
  mem := mem
  mmap := fun _ => true
  openMem := fun _ => true
  tries := fun _ _ _ => [.short true]

theorem zero_diff_iff_two :
    (utilProcMapsDiff (grantingHost fun _ a => UInt8.ofNat a) (twoBytesMap 1 'r' 'w')
        (twoBytesMap 2 'r' 'w') 0 0 0 none ()).1 = 0 ∧
      SameMemory (grantingHost fun _ a => UInt8.ofNat a) (twoBytesMap 1 'r' 'w')
        (twoBytesMap 2 'r' 'w') 0 0 ∧
      (utilProcMapsDiff (grantingHost fun _ a => UInt8.ofNat a) (twoBytesMap 2 'r' 'w')
        (twoBytesMap 1 'r' 'w') 0 0 0 none ()).1 = 0 := by
  have hzero : (utilProcMapsDiff (grantingHost fun _ a => UInt8.ofNat a) (twoBytesMap 1 'r' 'w')
      (twoBytesMap 2 'r' 'w') 0 0 0 none ()).1 = 0 := by decide
  refine ⟨hzero, (zero_diff_iff _ _ _ 0 0 () hzero).2 ⟨?_, ?_⟩⟩
  · intro e2 he2 hover
    obtain rfl : e2 = twoBytes 'r' 'w' := List.mem_singleton.1 he2
    exact ⟨twoBytes 'r' 'w', List.mem_singleton.2 rfl, by decide, by decide⟩
  · intro e he hr a hstart hstop ha
    rfl

/-- **A map that is not walked.** Against the empty map of another process a mapping goes
    unnoticed; the swapped comparison reports it. -/
theorem second_map_unnoticed :
    (utilProcMapsDiff (grantingHost fun _ _ => 0) (noMap 1) (twoBytesMap 2 'r' 'w')
        0 0 0 none ()).1 = 0 ∧
      ¬ SameMemory (grantingHost fun _ _ => 0) (noMap 1) (twoBytesMap 2 'r' 'w') 0 0 ∧
      (utilProcMapsDiff (grantingHost fun _ _ => 0) (twoBytesMap 2 'r' 'w') (noMap 1)
        0 0 0 none ()).1 = DiffFlag.allowNoEntry.mask := by
  refine ⟨by decide, ?_, by decide⟩
  intro hsame
  obtain ⟨e, -, hlookup, -⟩ := hsame 16 (by decide) (by decide) (.inr (by decide))
  have hnone : utilProcMapsLookupByAddr (noMap 1) 16 = none := rfl
  rw [hnone] at hlookup
  cases hlookup

-- Two mappings without read permission compare as equal, whatever they hold.
example :
    (utilProcMapsDiff (grantingHost fun pid _ => if pid = 1 then 0 else 7) (twoBytesMap 1 '-' 'w')
      (twoBytesMap 2 '-' 'w') 0 0 0 none ()).1 = 0 := by
  decide

end Equal

end Firestarter.Util
