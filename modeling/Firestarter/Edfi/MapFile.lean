import Firestarter.Lib.ByteCodec
import Mathlib.Data.List.Dedup
import Mathlib.Data.List.Perm.Subperm
import Mathlib.Data.Nat.Bitwise

namespace Firestarter.Edfi.MapFile

open ByteCodec

/-!
# The fault map file (`MapFile.cpp`)

The fault injector records the functions, blocks, instructions and fault candidates it meets in a
file of tagged records.  A string is written once, before the first record that refers to it, and
is known by its number in the file from then on.

* `Call`, `Writer`, `write`, `mapFile` — the code;
* `readRecords`, `decode` — a reader;
* `write_emits` — what it makes of the bytes of one call;
* `mapFile_decodes` — it finds all calls again, and different calls give different files.
-/

/-! ### The code -/

/-- A `std::string`. -/
abbrev Str := List UInt8

/-- A public call of the class. -/
inductive Call
  | basicBlock
  | dInstruction (path : Str) (line : UInt32)
  | faultCandidate (name : Str)
  | faultInjected (name : Str)
  | function (name relPath : Str)
  | instruction
  deriving DecidableEq

/-- The `MAPFILE_` tags. -/
inductive Tag
  | string | function | basicBlock | instruction | dInstruction | faultCandidate | faultInjected
  | moduleName

/-- The byte of a tag. -/
def Tag.byte : Tag → UInt8
  | .string => 1
  | .function => 2
  | .basicBlock => 3
  | .instruction => 4
  | .dInstruction => 5
  | .faultCandidate => 6
  | .faultInjected => 7
  | .moduleName => 8

/-- The members of the class: the file, and the strings written to it with their numbers. -/
structure Writer where
  file : List UInt8
  strings : List (Str × UInt32)
  stringRefNext : UInt32

/-- `file.put` and `file.write`. -/
def Writer.put (w : Writer) (bytes : List UInt8) : Writer := { w with file := w.file ++ bytes }

/-- `getStringRef`. -/
def getStringRef (s : Str) (w : Writer) : Writer × UInt32 :=
  match w.strings.lookup s with
  | some ref => (w, ref)
  | none =>
    let w := (w.put [Tag.string.byte]).put (s ++ [0])
    ({ w with
        strings := w.strings ++ [(s, w.stringRefNext)]
        stringRefNext := w.stringRefNext + 1 }, w.stringRefNext)

/-- The bytes that `writeInt` puts. -/
def intBytes (value : ℕ) : List UInt8 :=
  if value >>> 7 = 0 then [UInt8.ofNat (value &&& 0x7f)]
  else UInt8.ofNat (value &&& 0x7f ||| 0x80) :: intBytes (value >>> 7)
termination_by value
decreasing_by
  rw [Nat.shiftRight_eq_div_pow] at *
  omega

/-- `writeInt`. -/
def writeInt (value : ℕ) (w : Writer) : Writer := w.put (intBytes value)

/-- `writeStringRef`. -/
def writeStringRef (ref : UInt32) (w : Writer) : Writer := writeInt ref.toNat w

/-- A record with one string: its reference is taken first. -/
def writeNamed (tag : Tag) (name : Str) (w : Writer) : Writer :=
  let r := getStringRef name w
  writeStringRef r.2 (r.1.put [tag.byte])

/-- `writeModuleName`. -/
def writeModuleName (name : Str) (w : Writer) : Writer := writeNamed .moduleName name w

/-- `writeBasicBlock`. -/
def writeBasicBlock (w : Writer) : Writer := w.put [Tag.basicBlock.byte]

/-- `writeDInstruction`. -/
def writeDInstruction (path : Str) (line : UInt32) (w : Writer) : Writer :=
  writeInt line.toNat (writeNamed .dInstruction path w)

/-- `writeFaultCandidate`. -/
def writeFaultCandidate (name : Str) (w : Writer) : Writer := writeNamed .faultCandidate name w

/-- `writeFaultInjected`. -/
def writeFaultInjected (name : Str) (w : Writer) : Writer := writeNamed .faultInjected name w

/-- `writeFunction`: both references are taken first. -/
def writeFunction (name relPath : Str) (w : Writer) : Writer :=
  let r := getStringRef name w
  let r' := getStringRef relPath r.1
  writeStringRef r'.2 (writeStringRef r.2 (r'.1.put [Tag.function.byte]))

/-- `writeInstruction`. -/
def writeInstruction (w : Writer) : Writer := w.put [Tag.instruction.byte]

/-- A call of the class. -/
def write (w : Writer) : Call → Writer
  | .basicBlock => writeBasicBlock w
  | .dInstruction path line => writeDInstruction path line w
  | .faultCandidate name => writeFaultCandidate name w
  | .faultInjected name => writeFaultInjected name w
  | .function name relPath => writeFunction name relPath w
  | .instruction => writeInstruction w

/-- The file after the constructor and `calls`. -/
def mapFile (moduleName : Str) (calls : List Call) : List UInt8 :=
  (calls.foldl write (writeModuleName moduleName ⟨[], [], 0⟩)).file

/-! ### A reader -/

/-- Read a string reference, in a file with the strings `table` so far. -/
def readRef (table : List Str) (bytes : List UInt8) : Option (Str × List UInt8) := do
  let (ref, rest) ← readVarint bytes
  let s ← table[ref]?
  return (s, rest)

/-- What a record says. -/
inductive Record
  | string (s : Str)
  | moduleName (name : Str)
  | call (c : Call)

/-- Read one record. -/
def readRecord (table : List Str) : List UInt8 → Option (Record × List UInt8)
  | [] => none
  | tag :: bytes =>
    if tag = Tag.string.byte then do
      let (s, rest) ← readCString bytes
      return (.string s, rest)
    else if tag = Tag.function.byte then do
      let (name, rest) ← readRef table bytes
      let (relPath, rest) ← readRef table rest
      return (.call (.function name relPath), rest)
    else if tag = Tag.basicBlock.byte then some (.call .basicBlock, bytes)
    else if tag = Tag.instruction.byte then some (.call .instruction, bytes)
    else if tag = Tag.dInstruction.byte then do
      let (path, rest) ← readRef table bytes
      let (line, rest) ← readVarint rest
      return (.call (.dInstruction path (UInt32.ofNat line)), rest)
    else if tag = Tag.faultCandidate.byte then do
      let (name, rest) ← readRef table bytes
      return (.call (.faultCandidate name), rest)
    else if tag = Tag.faultInjected.byte then do
      let (name, rest) ← readRef table bytes
      return (.call (.faultInjected name), rest)
    else if tag = Tag.moduleName.byte then do
      let (name, rest) ← readRef table bytes
      return (.moduleName name, rest)
    else none

/-- Read the records up to the end of the file: the strings are numbered in file order, and the
    other records are the result. -/
def readRecords : ℕ → List Str → List UInt8 → Option (List Record)
  | _, _, [] => some []
  | 0, _, _ :: _ => none
  | fuel + 1, table, bytes => do
    let (record, rest) ← readRecord table bytes
    match record with
    | .string s => readRecords fuel (table ++ [s]) rest
    | record => return record :: (← readRecords fuel table rest)

/-- The call of a record. -/
def Record.toCall : Record → Option Call
  | .call c => some c
  | _ => none

/-- The calls in the bytes after the module record of a file whose strings so far are `table`. -/
def decode (table : List Str) (bytes : List UInt8) : Option (List Call) :=
  (readRecords bytes.length table bytes).bind fun records => records.mapM Record.toCall

/-! ### What the reader makes of the bytes of a record -/

/-- The bytes are read as `records`, by a reader that knows the strings `table`. -/
def Decodes (table : List Str) (bytes : List UInt8) (records : List Record) : Prop :=
  ∀ fuel, bytes.length ≤ fuel → readRecords fuel table bytes = some records

/-- The bytes of a number are those the reader expects. -/
theorem intBytes_eq (value : ℕ) : intBytes value = writeVarint value := by
  induction value using Nat.strongRecOn with
  | ind value ih =>
    have hlow : value &&& 0x7f = value % 128 := Nat.and_two_pow_sub_one_eq_mod value 7
    have hshift : value >>> 7 = value / 128 := Nat.shiftRight_eq_div_pow value 7
    have hor : value % 128 ||| 0x80 = value % 128 + 128 := by
      have hlt : value % 128 < 2 ^ 7 := Nat.mod_lt _ (by decide)
      have hsum : 2 ^ 7 * 1 + value % 128 = 0x80 ||| value % 128 :=
        Nat.two_pow_add_eq_or_of_lt hlt 1
      rw [Nat.or_comm]
      omega
    rw [intBytes, writeVarint, hshift, hlow, hor]
    by_cases hlast : value / 128 = 0
    · rw [if_pos hlast, if_pos hlast, Nat.mod_eq_of_lt (by omega)]
    · rw [if_neg hlast, if_neg hlast, ih (value / 128) (by omega)]

variable {s moduleName : Str} {calls : List Call}

theorem readRef_intBytes {table : List Str} {ref : UInt32} (h : table[ref.toNat]? = some s)
    (rest : List UInt8) : readRef table (intBytes ref.toNat ++ rest) = some (s, rest) := by
  rw [readRef, intBytes_eq, readVarint_write]
  simp [h]

section Decodes

variable {table : List Str} {bytes rest : List UInt8} {records : List Record}

/-- A string record gives the string the next number. -/
theorem Decodes.of_string {s : Str} (hread : readRecord table bytes = some (.string s, rest))
    (hlen : rest.length < bytes.length) (h : Decodes (table ++ [s]) rest records) :
    Decodes table bytes records := by
  intro fuel hfuel
  cases bytes with
  | nil => exact absurd hlen (Nat.not_lt_zero _)
  | cons b bytes =>
    cases fuel with
    | zero => exact absurd hfuel (Nat.not_succ_le_zero _)
    | succ fuel =>
      simp only [readRecords, hread, Option.bind_eq_bind, Option.bind_some]
      exact h fuel (by omega)

/-- Another record is the next of the result. -/
theorem Decodes.of_record {record : Record} (hkind : ∀ s, record ≠ .string s)
    (hread : readRecord table bytes = some (record, rest)) (hlen : rest.length < bytes.length)
    (h : Decodes table rest records) : Decodes table bytes (record :: records) := by
  intro fuel hfuel
  cases bytes with
  | nil => exact absurd hlen (Nat.not_lt_zero _)
  | cons b bytes =>
    cases fuel with
    | zero => exact absurd hfuel (Nat.not_succ_le_zero _)
    | succ fuel =>
      have hrest := h fuel (by omega)
      cases record with
      | string s => exact absurd rfl (hkind s)
      | moduleName name => simp [readRecords, hread, hrest]
      | call c => simp [readRecords, hread, hrest]

/-- Nothing follows. -/
theorem Decodes.nil : Decodes table [] [] := by
  intro fuel _
  cases fuel <;> rfl

/-- What a record with one reference says. -/
theorem readRecord_named {tag : Tag} {record : Str → Record} {ref : UInt32} {s : Str}
    (htag : (tag = .faultCandidate ∧ record = fun s => .call (.faultCandidate s)) ∨
      (tag = .faultInjected ∧ record = fun s => .call (.faultInjected s)) ∨
      (tag = .moduleName ∧ record = .moduleName)) (href : table[ref.toNat]? = some s) :
    readRecord table ([tag.byte] ++ intBytes ref.toNat ++ rest) = some (record s, rest) := by
  rcases htag with ⟨rfl, rfl⟩ | ⟨rfl, rfl⟩ | ⟨rfl, rfl⟩ <;>
    simp [readRecord, Tag.byte, readRef_intBytes href]

end Decodes

/-! ### The strings of writer and reader -/

/-- The strings that a file may refer to. -/
def Call.strings : Call → List Str
  | .basicBlock | .instruction => []
  | .dInstruction path _ => [path]
  | .faultCandidate name | .faultInjected name => [name]
  | .function name relPath => [name, relPath]

/-- The writer knows the strings that the reader has numbered; all of them are in `all`. -/
structure Synced (all : List Str) (w : Writer) (table : List Str) : Prop where
  found : ∀ s ref, w.strings.lookup s = some ref → table[ref.toNat]? = some s
  missing : ∀ s, w.strings.lookup s = none → s ∉ table
  next : w.stringRefNext = UInt32.ofNat table.length
  nodup : table.Nodup
  known : table ⊆ all

section Synced

variable {all : List Str} {w : Writer} {table : List Str}

/-- The numbers do not run out. -/
theorem Synced.length_lt (h : Synced all w table) (hfew : all.dedup.length < 2 ^ 32) :
    table.length < 2 ^ 32 := by
  have hsub : table ⊆ all.dedup := fun s hs => List.mem_dedup.mpr (h.known hs)
  exact Nat.lt_of_le_of_lt (List.subperm_of_subset h.nodup hsub).length_le hfew

/-- Output does not change the strings. -/
theorem Synced.put (h : Synced all w table) (bytes : List UInt8) : Synced all (w.put bytes) table :=
  ⟨h.found, h.missing, h.next, h.nodup, h.known⟩

/-- A number keeps its string. -/
theorem getElem?_of_grows {table table' : List Str} (hgrows : table <+: table') {i : ℕ}
    (h : table[i]? = some s) : table'[i]? = some s := by
  obtain ⟨more, rfl⟩ := hgrows
  obtain ⟨hlt, -⟩ := List.getElem?_eq_some_iff.mp h
  rw [List.getElem?_append_left hlt, h]

/-! ### One call -/

/-- What a part of the output does: the reader comes from the strings `table` to `table'`, with
    `records` for the bytes. -/
structure Emits (all : List Str) (w w' : Writer) (table table' : List Str)
    (records : List Record) : Prop where
  synced : Synced all w' table'
  grows : table <+: table'
  reads : ∃ out, w'.file = w.file ++ out ∧
    ∀ rest more, Decodes table' rest more → Decodes table (out ++ rest) (records ++ more)

theorem Emits.refl (h : Synced all w table) : Emits all w w table table [] :=
  ⟨h, List.prefix_refl table, [], (List.append_nil _).symm, fun _ _ h => h⟩

theorem Emits.trans {all : List Str} {w₁ w₂ w₃ : Writer} {t₁ t₂ t₃ : List Str}
    {r₁ r₂ : List Record} (h₁ : Emits all w₁ w₂ t₁ t₂ r₁) (h₂ : Emits all w₂ w₃ t₂ t₃ r₂) :
    Emits all w₁ w₃ t₁ t₃ (r₁ ++ r₂) := by
  obtain ⟨out₁, hfile₁, hreads₁⟩ := h₁.reads
  obtain ⟨out₂, hfile₂, hreads₂⟩ := h₂.reads
  refine ⟨h₂.synced, h₁.grows.trans h₂.grows, out₁ ++ out₂, ?_, fun rest more h => ?_⟩
  · rw [hfile₂, hfile₁, List.append_assoc]
  · rw [List.append_assoc, List.append_assoc]
    exact hreads₁ _ _ (hreads₂ rest more h)

/-- A record whose bytes the reader understands. -/
theorem Emits.record (h : Synced all w table)
    {record : Record} (hkind : ∀ s, record ≠ .string s) {out : List UInt8} (hne : out ≠ [])
    (hread : ∀ rest, readRecord table (out ++ rest) = some (record, rest)) :
    Emits all w (w.put out) table table [record] := by
  refine ⟨h.put out, List.prefix_refl table, out, rfl, fun rest more hrest => ?_⟩
  refine Decodes.of_record hkind (hread rest) ?_ hrest
  have := List.length_pos_iff.mpr hne
  rw [List.length_append]
  omega

theorem lookup_singleton {s' : Str} {ref ref' : UInt32} :
    List.lookup s' [(s, ref)] = some ref' ↔ s' = s ∧ ref = ref' := by
  rw [List.lookup_cons, List.lookup_nil]
  by_cases hs : s' = s
  · simp [hs]
  · simp [beq_false_of_ne hs, hs]

/-- The next number is the length of the reader's table. -/
theorem Synced.next_toNat (h : Synced all w table)
    (hfew : all.dedup.length < 2 ^ 32) : w.stringRefNext.toNat = table.length := by
  rw [h.next, UInt32.toNat_ofNat', Nat.mod_eq_of_lt (h.length_lt hfew)]

/-- **A new string** gets the same number from writer and reader. -/
theorem Synced.addString {all : List Str} (hfew : all.dedup.length < 2 ^ 32) {w : Writer}
    {table : List Str} (h : Synced all w table) (hs : s ∈ all) (hnew : w.strings.lookup s = none) :
    Synced all { w with
      strings := w.strings ++ [(s, w.stringRefNext)]
      stringRefNext := w.stringRefNext + 1 } (table ++ [s]) where
  found := by
    intro s' ref hfound
    simp only [List.lookup_append, Option.or_eq_some_iff] at hfound
    rcases hfound with hfound | ⟨-, hfound⟩
    · exact getElem?_of_grows (List.prefix_append table [s]) (h.found s' ref hfound)
    · obtain ⟨rfl, rfl⟩ := lookup_singleton.mp hfound
      rw [h.next_toNat hfew]
      simp
  missing := by
    intro s' hmissing
    simp only [List.lookup_append, Option.or_eq_none_iff] at hmissing
    rw [List.mem_append, List.mem_singleton]
    rintro (hmem | rfl)
    · exact h.missing s' hmissing.1 hmem
    · exact absurd (lookup_singleton.mpr ⟨rfl, rfl⟩) (by rw [hmissing.2]; nofun)
  next := by
    show w.stringRefNext + 1 = _
    rw [h.next, List.length_append, List.length_singleton, UInt32.ofNat_add]
    rfl
  nodup := by
    refine List.nodup_append.mpr ⟨h.nodup, List.nodup_singleton s, ?_⟩
    rintro a ha b hb rfl
    exact h.missing s hnew (List.mem_singleton.mp hb ▸ ha)
  known := List.append_subset.mpr ⟨h.known, by simpa using hs⟩

/-- **A reference**: the reader knows the string by it, from a string record if it is new. -/
theorem getStringRef_emits {all : List Str} (hfew : all.dedup.length < 2 ^ 32) {w : Writer}
    {table : List Str} (h : Synced all w table) (hs : s ∈ all) (hnul : 0 ∉ s) :
    ∃ table', Emits all w (getStringRef s w).1 table table' [] ∧
      table'[(getStringRef s w).2.toNat]? = some s := by
  rw [getStringRef]
  cases hlookup : w.strings.lookup s with
  | some ref => exact ⟨table, Emits.refl h, h.found s ref hlookup⟩
  | none =>
    -- the record of the string, behind which the reader has it as well
    have hsynced := ((h.put [Tag.string.byte]).put (s ++ [0])).addString hfew hs hlookup
    refine ⟨table ++ [s], ⟨hsynced, List.prefix_append table [s], ?_⟩, ?_⟩
    · refine ⟨[Tag.string.byte] ++ (s ++ [0]), ?_, fun rest more hrest => ?_⟩
      · simp only [Writer.put, List.append_assoc]
      · have hread : readRecord table ([Tag.string.byte] ++ (s ++ [0]) ++ rest) =
            some (.string s, rest) := by
          simp [readRecord, readCString_append hnul]
        refine Decodes.of_string hread ?_ hrest
        simp
        omega
    · show (table ++ [s])[w.stringRefNext.toNat]? = some s
      rw [h.next_toNat hfew]
      simp

theorem put_put (w : Writer) (a b : List UInt8) : (w.put a).put b = w.put (a ++ b) := by
  rw [Writer.put, Writer.put, Writer.put, List.append_assoc]

/-- A record with one string. -/
theorem writeNamed_emits (hfew : all.dedup.length < 2 ^ 32) (h : Synced all w table) {name : Str}
    (hname : name ∈ all) (hnul : 0 ∉ name) {tag : Tag} {record : Str → Record}
    (htag : (tag = .faultCandidate ∧ record = fun s => .call (.faultCandidate s)) ∨
      (tag = .faultInjected ∧ record = fun s => .call (.faultInjected s)) ∨
      (tag = .moduleName ∧ record = .moduleName)) :
    ∃ table', Emits all w (writeNamed tag name w) table table' [record name] := by
  obtain ⟨table', hemits, href⟩ := getStringRef_emits hfew h hname hnul
  refine ⟨table', hemits.trans ?_⟩
  rw [writeNamed, writeStringRef, writeInt, put_put]
  refine Emits.record hemits.synced ?_ (List.cons_ne_nil _ _) fun rest => ?_
  · intro s
    rcases htag with ⟨-, rfl⟩ | ⟨-, rfl⟩ | ⟨-, rfl⟩ <;> exact Record.noConfusion
  · exact readRecord_named htag href

/-- **A call** gives the record of the call. -/
theorem write_emits (hfew : all.dedup.length < 2 ^ 32) (h : Synced all w table) {c : Call}
    (hstrings : ∀ s ∈ c.strings, s ∈ all ∧ 0 ∉ s) :
    ∃ table', Emits all w (write w c) table table' [.call c] := by
  cases c with
  | basicBlock =>
    exact ⟨table, Emits.record h (fun _ => Record.noConfusion) (List.cons_ne_nil _ _)
      fun rest => rfl⟩
  | instruction =>
    exact ⟨table, Emits.record h (fun _ => Record.noConfusion) (List.cons_ne_nil _ _)
      fun rest => rfl⟩
  | faultCandidate name =>
    obtain ⟨hname, hnul⟩ := hstrings name List.mem_cons_self
    exact writeNamed_emits hfew h hname hnul (.inl ⟨rfl, rfl⟩)
  | faultInjected name =>
    obtain ⟨hname, hnul⟩ := hstrings name List.mem_cons_self
    exact writeNamed_emits hfew h hname hnul (.inr (.inl ⟨rfl, rfl⟩))
  | dInstruction path line =>
    obtain ⟨hpath, hnul⟩ := hstrings path List.mem_cons_self
    obtain ⟨table', hemits, href⟩ := getStringRef_emits hfew h hpath hnul
    refine ⟨table', hemits.trans ?_⟩
    rw [write, writeDInstruction, writeNamed, writeStringRef, writeInt, writeInt, put_put, put_put]
    refine Emits.record hemits.synced (fun _ => Record.noConfusion) (List.cons_ne_nil _ _)
      fun rest => ?_
    simp [readRecord, Tag.byte, readRef_intBytes href, intBytes_eq line.toNat, readVarint_write]
  | function name relPath =>
    -- the reference to the name is still good after the path has got its number
    obtain ⟨hname, hnul⟩ := hstrings name List.mem_cons_self
    obtain ⟨hpath, hnul'⟩ := hstrings relPath (List.mem_cons_of_mem _ List.mem_cons_self)
    obtain ⟨table', hemits, href⟩ := getStringRef_emits hfew h hname hnul
    obtain ⟨table'', hemits', href'⟩ := getStringRef_emits hfew hemits.synced hpath hnul'
    refine ⟨table'', (hemits.trans hemits').trans ?_⟩
    rw [write, writeFunction, writeStringRef, writeStringRef, writeInt, writeInt, put_put, put_put]
    refine Emits.record hemits'.synced (fun _ => Record.noConfusion) (List.cons_ne_nil _ _)
      fun rest => ?_
    have hname' := readRef_intBytes (getElem?_of_grows hemits'.grows href)
    simp [readRecord, Tag.byte, hname', readRef_intBytes href']

/-- **A sequence of calls** gives their records. -/
theorem foldl_write_emits (hfew : all.dedup.length < 2 ^ 32) (h : Synced all w table)
    {calls : List Call} (hstrings : ∀ c ∈ calls, ∀ s ∈ c.strings, s ∈ all ∧ 0 ∉ s) :
    ∃ table', Emits all w (calls.foldl write w) table table' (calls.map .call) := by
  induction calls generalizing w table with
  | nil => exact ⟨table, Emits.refl h⟩
  | cons c calls ih =>
    obtain ⟨table', hemits⟩ := write_emits hfew h (hstrings c List.mem_cons_self)
    obtain ⟨table'', hemits'⟩ :=
      ih hemits.synced fun c' hc' => hstrings c' (List.mem_cons_of_mem c hc')
    exact ⟨table'', hemits.trans hemits'⟩

end Synced

/-! ### The whole file -/

/-- All strings of a file. -/
def fileStrings (moduleName : Str) (calls : List Call) : List Str :=
  moduleName :: calls.flatMap Call.strings

/-- Strings without a zero byte, fewer than 2^32 different ones. -/
structure Writable (moduleName : Str) (calls : List Call) : Prop where
  nulFree : ∀ s ∈ fileStrings moduleName calls, 0 ∉ s
  few : (fileStrings moduleName calls).dedup.length < 2 ^ 32

theorem Writable.strings (h : Writable moduleName calls) :
    ∀ c ∈ calls, ∀ s ∈ c.strings, s ∈ fileStrings moduleName calls ∧ 0 ∉ s := by
  intro c hc s hs
  have hmem : s ∈ fileStrings moduleName calls :=
    List.mem_cons_of_mem _ (List.mem_flatMap.mpr ⟨c, hc, hs⟩)
  exact ⟨hmem, h.nulFree s hmem⟩

/-- A new writer knows no strings. -/
theorem synced_empty (all : List Str) : Synced all ⟨[], [], 0⟩ [] :=
  ⟨fun _ _ h => absurd h nofun, fun _ _ => List.not_mem_nil, rfl, List.nodup_nil,
    List.nil_subset all⟩

/-- After the constructor the module name is the only string. -/
theorem synced_moduleName {all : List Str} (h : moduleName ∈ all) :
    Synced all (writeModuleName moduleName ⟨[], [], 0⟩) [moduleName] := by
  refine ⟨fun s ref hfound => ?_, fun s hmissing hmem => ?_, rfl, List.nodup_singleton _, ?_⟩
  · obtain ⟨rfl, rfl⟩ := lookup_singleton.mp hfound
    rfl
  · obtain rfl := List.mem_singleton.mp hmem
    exact absurd (hmissing.symm.trans (lookup_singleton.mpr ⟨rfl, rfl⟩)) nofun
  · intro s hs
    exact List.mem_singleton.mp hs ▸ h

theorem mapM_toCall (calls : List Call) :
    (calls.map Record.call).mapM Record.toCall = some calls := by
  induction calls with
  | nil => rfl
  | cons c calls ih => simp [Record.toCall, ih]

/-- The whole file is read as the module name and the calls. -/
theorem decodes_mapFile (h : Writable moduleName calls) :
    Decodes [] (mapFile moduleName calls) (.moduleName moduleName :: calls.map .call) := by
  have hname : moduleName ∈ fileStrings moduleName calls := List.mem_cons_self
  obtain ⟨table, hemits⟩ := writeNamed_emits h.few (synced_empty _) hname (h.nulFree _ hname)
    (.inr (.inr ⟨rfl, rfl⟩))
  obtain ⟨table', hemits'⟩ := foldl_write_emits h.few hemits.synced h.strings
  obtain ⟨out, hfile, hreads⟩ := (hemits.trans hemits').reads
  have hdecodes := hreads [] [] Decodes.nil
  rw [List.append_nil, List.append_nil] at hdecodes
  rw [mapFile, show (calls.foldl write (writeModuleName moduleName ⟨[], [], 0⟩)).file = out from
    hfile.trans (List.nil_append out)]
  exact hdecodes

/-- The bytes after the module record are read as the calls. -/
theorem decode_tail (h : Writable moduleName calls) :
    ∃ tail, mapFile moduleName calls = mapFile moduleName [] ++ tail ∧
      decode [moduleName] tail = some calls := by
  have hname : moduleName ∈ fileStrings moduleName calls := List.mem_cons_self
  obtain ⟨table, hemits⟩ := foldl_write_emits h.few (synced_moduleName hname) h.strings
  obtain ⟨out, hfile, hreads⟩ := hemits.reads
  have hdecodes := hreads [] [] Decodes.nil
  rw [List.append_nil, List.append_nil] at hdecodes
  refine ⟨out, hfile, ?_⟩
  rw [decode, hdecodes out.length (Nat.le_refl _), Option.bind_some, mapM_toCall]

/-- **The map file can be decoded.** The bytes after the module record are read as the calls that
    were made, and two different sequences of calls never give the same file. -/
theorem mapFile_decodes {moduleName : Str} {calls : List Call} (h : Writable moduleName calls) :
    (∃ tail, mapFile moduleName calls = mapFile moduleName [] ++ tail ∧
      decode [moduleName] tail = some calls) ∧
    ∀ moduleName' calls', Writable moduleName' calls' →
      mapFile moduleName' calls' = mapFile moduleName calls →
      moduleName' = moduleName ∧ calls' = calls := by
  refine ⟨decode_tail h, fun moduleName' calls' h' heq => ?_⟩
  have hread := decodes_mapFile h _ (Nat.le_refl _)
  have hread' := decodes_mapFile h' _ (Nat.le_refl _)
  rw [heq, hread] at hread'
  obtain ⟨hname, hcalls⟩ := List.cons.inj (Option.some.inj hread')
  refine ⟨(Record.moduleName.inj hname).symm, ?_⟩
  exact Option.some.inj (by rw [← mapM_toCall calls', ← mapM_toCall calls, hcalls])

/-- A file with one function and a block. -/
theorem mapFile_decodes_function :
    ∃ tail, mapFile [109] [.function [102] [97], .basicBlock, .dInstruction [97] 300] =
        mapFile [109] [] ++ tail ∧
      decode [[109]] tail = some [.function [102] [97], .basicBlock, .dInstruction [97] 300] :=
  (mapFile_decodes ⟨by decide, by decide⟩).1

end Firestarter.Edfi.MapFile
