import Firestarter.Lib.CNumber
import Firestarter.Util.LineReader

namespace Firestarter.Util

open CNumber Scan

/-!
# Parsing `/proc/<pid>/maps`

`util_proc_maps_parse_filter` reads the file line by line into one buffer and scans each line with
`sscanf`.  The reader does not terminate the line, so the scan goes on behind it: into what an
earlier, longer line, the path of the file or the stack left in the buffer.

* `sscanfMaps`: the scan of one line, up to the name;
* `utilProcMapsParseFilter`: the loop over the lines, with the callback;
* `parseLoop_ends`: the loop ends before its fuel does;
* `sscanfMaps_append_iff`: when bytes behind a line leave its entry as it is;
* `utilProcMapsParseFilter_lines`: what is returned for a file of lines that fit;
* `built_entry_alone_iff`: when every entry the function builds is that of its line alone.
-/

/-- `util_proc_maps_entry_t`, without the pointers the parser sets to constants. -/
structure Entry where
  vmStart : ℕ
  vmEnd : ℕ
  r : Char
  w : Char
  x : Char
  s : Char
  pgoff : ℕ
  major : ℕ
  minor : ℕ
  ino : ℕ
  name : List Char
  deriving DecidableEq, Repr

/-- The part `%lx-%lx %c%c%c%c %llx %x:%x ` of the format: everything before the inode number. -/
def rangeFields : Scanner Char Entry := do
  let vmStart ← hexText
  exactly '-'
  let vmEnd ← hexText
  skipWhile isSpace
  let r ← item
  let w ← item
  let x ← item
  let s ← item
  skipWhile isSpace
  let pgoff ← hexText
  skipWhile isSpace
  let major ← hexText
  exactly ':'
  let minor ← hexText
  skipWhile isSpace
  pure { vmStart := vmStart.ulong 16, vmEnd := vmEnd.ulong 16, r, w, x, s,
         pgoff := pgoff.ulong 16, major := major.uint 16, minor := minor.uint 16,
         ino := 0, name := [] }

/-- The part ` %s`.  At the end of the text the name stays empty. -/
def nameField : Scanner Char (List Char) := do
  skipWhile isSpace
  span (!isSpace ·)

/-- `sscanf(buf, "%lx-%lx %c%c%c%c %llx %x:%x %lu %s", ...)`: the entry, or `none` when it
    assigns fewer than ten fields. -/
def sscanfMaps (s : List Char) : Option Entry := do
  let (e, q) ← rangeFields.run s
  let (ino, rest) ← decText.run q
  let (name, _) ← nameField.run rest
  pure { e with ino := ino.ulong 10, name }

/-! ### The parser -/

/-- `util_proc_maps_parse_ret_t`; `err` stands for all other results of a callback too. -/
inductive ParseRet
  | save
  | saveAndStop
  | cont
  | stop
  | err
  deriving DecidableEq, Repr

/-- How the function ends: the result `0`, `-EINVAL` or `-ENOENT`, or a name that overflows
    `char name[128]`. -/
inductive Status
  | ok
  | einval
  | enoent
  | overflow
  deriving DecidableEq, Repr

/-- The string that starts at the head of `buf`. -/
def cString (buf : List Char) : List Char := buf.takeWhile (· ≠ nul)

/-- An entry the parser has built: the line `bufread` returned for it, the string that followed
    this line in the buffer, and what `sscanf` made of the two. -/
structure Built where
  line : List Char
  behind : List Char
  entry : Entry
  deriving DecidableEq, Repr

/-- The locals of the parser.  `built` is a history that no step reads. -/
structure ParseState (κ : Type) where
  reader : LineReader.State
  buf : List Char
  entries : List Entry
  cbArgs : κ
  built : List Built

/-- The outcome of one iteration. -/
inductive Iter (κ : Type)
  | again (st : ParseState κ)
  | done (ret : Status) (st : ParseState κ)

/-- The callback of the parser, if it has one. -/
abbrev Callback (κ : Type) : Type := Option (κ → Entry → ParseRet × κ)

variable {κ : Type}

/-- What the callback answers to an entry; without a callback every entry is saved. -/
def answer (cb : Callback κ) (cbArgs : κ) (e : Entry) : ParseRet × κ :=
  match cb with
  | none => (.save, cbArgs)
  | some f => f cbArgs e

/-- A line has been scanned to `e`: call the callback and save the entry. -/
def saveEntry (cb : Callback κ) (e : Entry) (st : ParseState κ) : Iter κ :=
  let (ret, cbArgs) := answer cb st.cbArgs e
  match ret with
  | .save => .again { st with cbArgs, entries := st.entries ++ [e] }
  | .saveAndStop => .done .ok { st with cbArgs, entries := st.entries ++ [e] }
  | .cont => .again { st with cbArgs }
  | .stop => .done .ok { st with cbArgs }
  | .err => .done .enoent { st with cbArgs }

/-- The scan of a line that was copied to the head of `buf`. -/
def scanLine (cb : Callback κ) (line : List Char) (st : ParseState κ) :
    Iter κ :=
  let behind := st.buf.drop line.length
  let buf := line ++ behind
  match sscanfMaps (cString buf) with
  | none => .done .einval { st with buf }
  | some entry =>
    if 128 ≤ entry.name.length then .done .overflow { st with buf }
    else saveEntry cb entry { st with
      buf, built := st.built ++ [{ line, behind := cString behind, entry }] }

/-- `iobuf.end - iobuf.start`. -/
def ioSize : ℕ := 4999

/-- One iteration of the loop; `buf` has 5000 bytes. -/
def parseLine (cb : Callback κ) (st : ParseState κ) : Iter κ :=
  match LineReader.bufreadFrom ioSize 5000 st.reader with
  | none => .done .ok st
  | some (line, reader) =>
    if line = [] then .done .ok { st with reader } else scanLine cb line { st with reader }

/-- The loop, for at most `n` iterations; `none` when they do not suffice (`parseLoop_ends`). -/
def parseLoop (cb : Callback κ) :
    ℕ → ParseState κ → Option (Status × ParseState κ)
  | 0, _ => none
  | n + 1, st =>
    match parseLine cb st with
    | .again st' => parseLoop cb n st'
    | .done ret st' => some (ret, st')

/-- `sprintf(buf, "/proc/%d/maps", pid)`, with its NUL. -/
def mapsPath (pid : ℤ) : List Char :=
  ['/', 'p', 'r', 'o', 'c', '/'] ++ (if pid < 0 then ['-'] else []) ++
    Nat.toDigits 10 pid.natAbs ++ ['/', 'm', 'a', 'p', 's', nul]

/-- The locals when the loop starts: the pointer of the I/O buffer is at its end, and `stack` is
    what `buf` holds behind the path. -/
def parseInit (pid : ℤ) (content stack : List Char) (cbArgs : κ) : ParseState κ where
  reader := ⟨[], content, []⟩
  buf := mapsPath pid ++ stack
  entries := []
  cbArgs := cbArgs
  built := []

/-- `util_proc_maps_parse_filter`: the result, the entries of `maps` and the history.  `content`
    is what the file holds, if it can be opened; `mapped` tells which entries
    `util_proc_maps_remove_unmapped` keeps. -/
def utilProcMapsParseFilter (pid : ℤ) (content : Option (List Char)) (stack : List Char)
    (mapped : Entry → Bool) (cb : Callback κ) (cbArgs : κ) :
    Option (Status × List Entry × List Built) :=
  match content with
  | none => some (.enoent, [], [])
  | some content =>
    (parseLoop cb (content.length + 1) (parseInit pid content stack cbArgs)).map
      fun (ret, st) => (ret, if ret = .ok then st.entries.filter mapped else [], st.built)

/-! ### The scan does not look behind what it leaves -/

theorem local_rangeFields : Local rangeFields :=
  local_hexText.bind fun _ => (local_exactly _).bind fun _ => local_hexText.bind fun _ =>
  (local_skipWhile _).bind fun _ => local_item.bind fun _ => local_item.bind fun _ =>
  local_item.bind fun _ => local_item.bind fun _ => (local_skipWhile _).bind fun _ =>
  local_hexText.bind fun _ => (local_skipWhile _).bind fun _ => local_hexText.bind fun _ =>
  (local_exactly _).bind fun _ => local_hexText.bind fun _ => (local_skipWhile _).bind fun _ =>
  local_pure _

/-! ### The name -/

/-- The name scanned from the text behind the inode number. -/
def nameOf (r : List Char) : List Char := (r.dropWhile isSpace).takeWhile (!isSpace ·)

/-- A text has no name if and only if it is blank. -/
theorem nameOf_eq_nil_iff {r : List Char} : nameOf r = [] ↔ ∀ c ∈ r, isSpace c := by
  rw [← List.dropWhile_eq_nil_iff, nameOf]
  constructor
  · intro h
    by_contra hne
    obtain ⟨c, s, hs⟩ := List.exists_cons_of_ne_nil hne
    have hc := List.head_dropWhile_not isSpace hne
    simp [hs] at hc
    simp [hs, hc] at h
  · intro h
    rw [h]
    rfl

/-- What follows `r` does not change its name: it is blank if `r` is, and else the name ends in
    `r` or with it. -/
def NameEnds (r t : List Char) : Prop :=
  if r.dropWhile isSpace = [] then ∀ c ∈ t, isSpace c
  else (∃ c ∈ r.dropWhile isSpace, isSpace c) ∨ t.takeWhile (!isSpace ·) = []

-- decided over the lists: the instance for quantifiers over `Char` goes through all characters
instance (r t : List Char) : Decidable (NameEnds r t) := by
  unfold NameEnds
  have := List.decidableBAll (fun c => isSpace c = true) t
  have := List.decidableBEx (fun c => isSpace c = true) (r.dropWhile isSpace)
  infer_instance

theorem nameOf_append_iff (r t : List Char) : nameOf (r ++ t) = nameOf r ↔ NameEnds r t := by
  rw [NameEnds]
  split_ifs with hblank
  · have hr : nameOf r = [] := nameOf_eq_nil_iff.mpr (List.dropWhile_eq_nil_iff.mp hblank)
    have hall := List.dropWhile_eq_nil_iff.mp hblank
    rw [hr, nameOf_eq_nil_iff, List.forall_mem_append]
    exact and_iff_right hall
  · rw [nameOf, nameOf, dropWhile_append_of_ne_nil hblank]
    generalize r.dropWhile isSpace = n
    by_cases hsp : ∃ c ∈ n, isSpace c
    · have hne : n.dropWhile (!isSpace ·) ≠ [] := by
        intro h
        obtain ⟨c, hc, hsc⟩ := hsp
        simpa [hsc] using List.dropWhile_eq_nil_iff.mp h c hc
      exact iff_of_true (takeWhile_append_of_ne_nil hne t) (Or.inl hsp)
    · have hall : ∀ c ∈ n, (!isSpace c) = true := by
        intro c hc
        simpa using fun h => hsp ⟨c, hc, h⟩
      rw [List.takeWhile_append_of_pos hall, List.takeWhile_eq_self_iff.mpr hall,
        List.append_right_eq_self]
      exact (or_iff_right hsp).symm

/-! ### The entry of a line and of the bytes behind it -/

variable {s : List Char} {e : Entry} {cb : Callback κ}
  {st st' : ParseState κ} {ret : Status} {n : ℕ}

/-- The scan in its parts. -/
theorem sscanfMaps_eq_some :
    sscanfMaps s = some e ↔ ∃ f q w r, rangeFields.run s = some (f, q) ∧
      decText.run q = some (w, r) ∧ e = { f with ino := w.ulong 10, name := nameOf r } := by
  simp only [sscanfMaps, Option.bind_eq_bind, Option.bind_eq_some_iff, Prod.exists]
  constructor
  · rintro ⟨f, q, hf, w, r, hw, -, -, ⟨⟩, ⟨⟩⟩
    exact ⟨f, q, w, r, hf, hw, rfl⟩
  · rintro ⟨f, q, w, r, hf, hw, rfl⟩
    exact ⟨f, q, hf, w, r, hw, _, _, rfl, rfl⟩

/-- **The condition on a line and the string `t` behind it.**  The line has its ten fields, and
    behind the inode number a name that ends in the line, or nothing but white space up to the end
    of the string; if the line ends with the inode number itself, its number is not changed by the
    digits at the head of `t`, and the rest of `t` is blank. -/
def Undisturbed (line t : List Char) : Prop :=
  ∃ f q w r, rangeFields.run line = some (f, q) ∧ decText.run q = some (w, r) ∧
    if r = [] then
      NumText.ulong 10 ⟨w.minus, w.digits ++ t.takeWhile isDigit⟩ = w.ulong 10 ∧
        ∀ c ∈ t.dropWhile isDigit, isSpace c
    else NameEnds r t

instance (line t : List Char) : Decidable (Undisturbed line t) :=
  letI := List.decidableBAll (fun c => isSpace c = true) (t.dropWhile isDigit)
  decidable_of_iff (∃ x ∈ rangeFields.run line, ∃ y ∈ decText.run x.2,
    if y.2 = [] then
      NumText.ulong 10 ⟨y.1.minus, y.1.digits ++ t.takeWhile isDigit⟩ = y.1.ulong 10 ∧
        ∀ c ∈ t.dropWhile isDigit, isSpace c
    else NameEnds y.2 t) <| by
    constructor
    · rintro ⟨⟨f, q⟩, hf, ⟨w, r⟩, hw, h⟩
      exact ⟨f, q, w, r, hf, hw, h⟩
    · rintro ⟨f, q, w, r, hf, hw, h⟩
      exact ⟨⟨f, q⟩, hf, ⟨w, r⟩, hw, h⟩

/-- **When the bytes behind a line do not matter.** -/
theorem sscanfMaps_append_iff {line t : List Char} (h : sscanfMaps (line ++ t) = some e) :
    sscanfMaps line = some e ↔ Undisturbed line t := by
  -- both sides give the parts of the line's own scan; the scan of the longer text shares the first
  have key : ∀ f q w r, rangeFields.run line = some (f, q) → decText.run q = some (w, r) →
      (({ f with ino := w.ulong 10, name := nameOf r } : Entry) = e ↔
        if r = [] then
          NumText.ulong 10 ⟨w.minus, w.digits ++ t.takeWhile isDigit⟩ = w.ulong 10 ∧
            ∀ c ∈ t.dropWhile isDigit, isSpace c
        else NameEnds r t) := by
    intro f q w r hf hw
    have hf' := local_rangeFields.stable hf (decText_ne_nil hw) t
    split_ifs with hr
    · subst hr
      have he := sscanfMaps_eq_some.mpr ⟨_, _, _, _, hf', decText_append_of_end hw t, rfl⟩
      obtain rfl := Option.some.inj (h.symm.trans he)
      rw [Entry.mk.injEq, ← nameOf_eq_nil_iff]
      simp only [true_and]
      exact and_congr eq_comm eq_comm
    · have he := sscanfMaps_eq_some.mpr ⟨_, _, _, _, hf', local_decText.stable hw hr t, rfl⟩
      obtain rfl := Option.some.inj (h.symm.trans he)
      rw [Entry.mk.injEq, ← nameOf_append_iff]
      simp only [true_and]
      exact eq_comm
  constructor
  · intro hline
    obtain ⟨f, q, w, r, hf, hw, he⟩ := sscanfMaps_eq_some.mp hline
    exact ⟨f, q, w, r, hf, hw, (key f q w r hf hw).mp he.symm⟩
  · rintro ⟨f, q, w, r, hf, hw, hr⟩
    exact sscanfMaps_eq_some.mpr ⟨f, q, w, r, hf, hw, ((key f q w r hf hw).mpr hr).symm⟩

/-! ### Runs of the parser -/

/-- The locals after an iteration. -/
def Iter.state : Iter κ → ParseState κ
  | .again st => st
  | .done _ st => st

/-- The entries that the callback saves of those it sees. -/
def saved (cb : Callback κ) : κ → List Entry → List Entry
  | _, [] => []
  | cbArgs, e :: es =>
    (if (answer cb cbArgs e).1 = .save ∨ (answer cb cbArgs e).1 = .saveAndStop then [e] else []) ++
      saved cb (answer cb cbArgs e).2 es

/-- Saving an entry reads no line. -/
theorem saveEntry_state (cb : Callback κ) (e : Entry) (st : ParseState κ) :
    (saveEntry cb e st).state = { st with
      cbArgs := (answer cb st.cbArgs e).2
      entries := st.entries ++ saved cb st.cbArgs [e] } := by
  rw [saveEntry, saved, saved]
  rcases answer cb st.cbArgs e with ⟨ret, cbArgs⟩
  cases ret <;> simp [Iter.state]

theorem saveEntry_done (h : saveEntry cb e st = .done ret st') : ret ≠ .overflow ∧ cb.isSome := by
  cases cb with
  | none => exact absurd h nofun
  | some f =>
    refine ⟨?_, rfl⟩
    rw [saveEntry] at h
    generalize answer (some f) st.cbArgs e = answered at h
    obtain ⟨answered, cbArgs⟩ := answered
    cases answered <;> cases h <;> decide

theorem cString_append {line : List Char} (h : nul ∉ line) (s : List Char) :
    cString (line ++ s) = line ++ cString s := by
  refine List.takeWhile_append_of_pos fun c hc => ?_
  have hne : c ≠ nul := fun heq => h (heq ▸ hc)
  simpa using hne

/-- **The scan of a line** ends the loop without an entry, or builds the entry `sscanf` makes of
    the line and the string behind it. -/
theorem scanLine_cases (cb : Callback κ) {line : List Char}
    (hline : nul ∉ line) (st : ParseState κ) :
    (∃ ret, scanLine cb line st = .done ret { st with buf := line ++ st.buf.drop line.length } ∧
      (ret = .einval ∨ ret = .overflow ∧ ∃ e,
        sscanfMaps (cString (line ++ st.buf.drop line.length)) = some e ∧ 128 ≤ e.name.length)) ∨
    ∃ b : Built, b.line = line ∧ sscanfMaps (b.line ++ b.behind) = some b.entry ∧
      scanLine cb line st = saveEntry cb b.entry { st with
        buf := line ++ st.buf.drop line.length, built := st.built ++ [b] } := by
  rw [scanLine]
  split
  · exact Or.inl ⟨_, rfl, Or.inl rfl⟩
  · next entry hscan =>
    split_ifs with hlong
    · exact Or.inl ⟨_, rfl, Or.inr ⟨rfl, entry, hscan, hlong⟩⟩
    · refine Or.inr ⟨⟨line, cString (st.buf.drop line.length), entry⟩, rfl, ?_, rfl⟩
      rwa [← cString_append hline]

/-- **One iteration.**  It ends the loop without an entry, or it reads a line and builds the entry
    `sscanf` makes of the line and the string behind it. -/
theorem parseLine_cases (cb : Callback κ) (st : ParseState κ) :
    (∃ ret st', parseLine cb st = .done ret st' ∧ st'.built = st.built) ∨
    ∃ (b : Built) (reader : LineReader.State) (buf : List Char),
      LineReader.bufreadFrom ioSize 5000 st.reader = some (b.line, reader) ∧ b.line ≠ [] ∧
      sscanfMaps (b.line ++ b.behind) = some b.entry ∧
      parseLine cb st = saveEntry cb b.entry { st with
        reader, buf, built := st.built ++ [b] } := by
  rw [parseLine]
  split
  · exact Or.inl ⟨_, _, rfl, rfl⟩
  · next line reader hread =>
    split_ifs with hline
    · exact Or.inl ⟨_, _, rfl, rfl⟩
    · rcases scanLine_cases cb (LineReader.bufreadFrom_spec hread).1 { st with reader } with
        ⟨ret, hscan, -⟩ | ⟨b, rfl, hscan, heq⟩
      · exact Or.inl ⟨ret, _, hscan, rfl⟩
      · exact Or.inr ⟨b, reader, _, hread, hline, hscan, heq⟩

/-- **Every entry comes from its line and the string behind it.** -/
theorem parseLoop_built (h : parseLoop cb n st = some (ret, st'))
    (hst : ∀ b ∈ st.built, sscanfMaps (b.line ++ b.behind) = some b.entry) :
    ∀ b ∈ st'.built, sscanfMaps (b.line ++ b.behind) = some b.entry := by
  induction n generalizing st with
  | zero => exact absurd h nofun
  | succ n ih =>
    have hstep : ∀ b ∈ (parseLine cb st).state.built,
        sscanfMaps (b.line ++ b.behind) = some b.entry := by
      rcases parseLine_cases cb st with ⟨ret, st₁, heq, hbuilt⟩ | ⟨b, _, _, -, -, hscan, heq⟩
      · rw [heq]
        exact hbuilt ▸ hst
      · rw [heq, saveEntry_state]
        exact List.forall_mem_append.mpr ⟨hst, List.forall_mem_singleton.mpr hscan⟩
    rw [parseLoop] at h
    split at h
    · next heq =>
      rw [heq] at hstep
      exact ih h hstep
    · next heq =>
      obtain ⟨rfl, rfl⟩ := Prod.ext_iff.mp (Option.some.inj h)
      rw [heq] at hstep
      exact hstep

/-- An iteration that goes on has consumed bytes of the file. -/
theorem parseLine_again (h : parseLine cb st = .again st') : st'.reader.live < st.reader.live := by
  rcases parseLine_cases cb st with ⟨ret, st₁, heq, -⟩ | ⟨b, reader, buf, hread, hne, -, heq⟩
  · exact absurd (h.symm.trans heq) nofun
  · have hlive := (LineReader.bufreadFrom_spec hread).2
    have hpos := List.length_pos_iff.mpr hne
    have hstate := saveEntry_state cb b.entry { st with reader, buf, built := st.built ++ [b] }
    rw [← heq, h] at hstate
    rw [show st'.reader = reader from congrArg ParseState.reader hstate]
    omega

/-- **The loop ends.**  Every iteration but the last consumes a byte. -/
theorem parseLoop_ends (cb : Callback κ) (hn : st.reader.live < n) :
    (parseLoop cb n st).isSome := by
  induction n generalizing st with
  | zero => omega
  | succ n ih =>
    rw [parseLoop]
    split
    · next heq =>
      have hlive := parseLine_again heq
      exact ih (by omega)
    · rfl

/-- The function returns for every content. -/
theorem utilProcMapsParseFilter_isSome (pid : ℤ) (content : Option (List Char))
    (stack : List Char) (mapped : Entry → Bool) (cb : Callback κ)
    (cbArgs : κ) : (utilProcMapsParseFilter pid content stack mapped cb cbArgs).isSome := by
  cases content with
  | none => rfl
  | some content =>
    rw [utilProcMapsParseFilter, Option.isSome_map]
    refine parseLoop_ends cb ?_
    exact Nat.lt_succ_of_le (Nat.le_of_eq (Nat.zero_add _))

/-! ### Names -/

/-- No word of the text has 128 bytes; NULs end words too. -/
def ShortWords (s : List Char) : Prop :=
  ∀ t, t <:+ s → (t.takeWhile fun c => !isSpace c && c ≠ nul).length < 128

theorem ShortWords.cons_iff {c : Char} : ShortWords (c :: s) ↔
    ((c :: s).takeWhile fun c => !isSpace c && c ≠ nul).length < 128 ∧ ShortWords s := by
  constructor
  · exact fun h => ⟨h _ List.suffix_rfl, fun t ht => h t (ht.trans (List.suffix_cons c s))⟩
  · rintro ⟨hc, hs⟩ t ht
    rcases List.suffix_cons_iff.mp ht with rfl | ht
    · exact hc
    · exact hs t ht

variable {body : List Char} {bodies : List (List Char)}

/-- A newline ends a word. -/
theorem ShortWords.line (hbody : ShortWords body) (hs : ShortWords s) :
    ShortWords (body ++ '\n' :: s) := by
  induction body with
  | nil => exact ShortWords.cons_iff.mpr ⟨by simp [isSpace], hs⟩
  | cons c body ih =>
    obtain ⟨hc, hbody⟩ := ShortWords.cons_iff.mp hbody
    refine ShortWords.cons_iff.mpr ⟨?_, ih hbody⟩
    show (List.takeWhile _ ((c :: body) ++ '\n' :: s)).length < 128
    rw [List.takeWhile_append]
    split_ifs with hall
    · rw [hall] at hc
      simpa [isSpace] using hc
    · exact hc

/-- The name is a word of the buffer. -/
theorem name_length_lt {buf : List Char} (h : sscanfMaps (cString buf) = some e)
    (hbuf : ShortWords buf) : e.name.length < 128 := by
  obtain ⟨f, q, w, r, hf, hw, rfl⟩ := sscanfMaps_eq_some.mp h
  have hsuffix : r.dropWhile isSpace <:+ cString buf :=
    ((List.dropWhile_suffix _).trans (local_decText.suffix hw)).trans (local_rangeFields.suffix hf)
  obtain ⟨pre, hpre⟩ := hsuffix
  have hsplit : buf = cString buf ++ buf.dropWhile (· ≠ nul) := List.takeWhile_append_dropWhile.symm
  have hword : ∀ c ∈ nameOf r, (!isSpace c && c ≠ nul) = true := by
    intro c hc
    have hspace := List.mem_takeWhile_imp hc
    have hmem : c ∈ cString buf :=
      hpre ▸ List.mem_append_right pre ((List.takeWhile_prefix _).mem hc)
    have hnul := List.mem_takeWhile_imp (p := (· ≠ nul)) hmem
    exact Bool.and_eq_true_iff.mpr ⟨hspace, hnul⟩
  obtain ⟨rest, hrest⟩ : ∃ rest, nameOf r ++ rest = r.dropWhile isSpace :=
    List.takeWhile_prefix _
  have hlt := hbuf (nameOf r ++ (rest ++ buf.dropWhile (· ≠ nul))) ⟨pre, by
    rw [← List.append_assoc, ← List.append_assoc, List.append_assoc pre, hrest, hpre, ← hsplit]⟩
  rw [List.takeWhile_append_of_pos hword, List.length_append] at hlt
  exact Nat.lt_of_le_of_lt (Nat.le_add_right _ _) hlt

/-! ### A file of lines -/

/-- A line of the file, without its newline: it fits `buf` and has no word that overflows a
    name. -/
structure LineFits (body : List Char) : Prop where
  length : body.length < 4999
  plain : ∀ c ∈ body, c ≠ '\n' ∧ c ≠ nul
  words : ShortWords body

/-- What a run has done with the lines it was to read, from `st` to the result. -/
structure ReadsLines (cb : Callback κ) (bodies : List (List Char))
    (st : ParseState κ) (ret : Status) (st' : ParseState κ) (new : List Built) : Prop where
  built : st'.built = st.built ++ new
  lines : new.map Built.line <+: bodies.map (· ++ ['\n'])
  entries : st'.entries = st.entries ++ saved cb st.cbArgs (new.map Built.entry)
  noOverflow : ret ≠ .overflow
  all : ret = .ok → cb = none → new.map Built.line = bodies.map (· ++ ['\n'])

/-- A run that builds nothing. -/
theorem ReadsLines.nil (hbuilt : st'.built = st.built) (hentries : st'.entries = st.entries)
    (hret : ret ≠ .overflow) (hall : ret = .ok → cb = none → bodies = []) :
    ReadsLines cb bodies st ret st' [] where
  built := by rw [hbuilt, List.append_nil]
  lines := List.nil_prefix
  entries := hentries.trans (List.append_nil _).symm
  noOverflow := hret
  all hok hcb := by rw [hall hok hcb]; rfl

/-- A line whose entry is built, which leads to `st₁`, and a run from there. -/
theorem ReadsLines.cons {st₁ : ParseState κ} {b : Built} {new : List Built}
    (hline : b.line = body ++ ['\n']) (hbuilt : st₁.built = st.built ++ [b])
    (hargs : st₁.cbArgs = (answer cb st.cbArgs b.entry).2)
    (hentries : st₁.entries = st.entries ++ saved cb st.cbArgs [b.entry])
    (h : ReadsLines cb bodies st₁ ret st' new) :
    ReadsLines cb (body :: bodies) st ret st' (b :: new) where
  built := by rw [h.built, hbuilt, List.append_assoc, List.singleton_append]
  lines := by
    rw [List.map_cons, List.map_cons, hline]
    exact (List.prefix_cons_inj _).mpr h.lines
  entries := by simp [h.entries, hentries, hargs, saved]
  noOverflow := h.noOverflow
  all hok hcb := by rw [List.map_cons, List.map_cons, hline, h.all hok hcb]

/-- **The lines are those of the file.**  If the reader holds lines that fit, entries are built
    from these lines, in their order, and the callback decides which are saved. -/
theorem parseLoop_lines (hbodies : ∀ body ∈ bodies, LineFits body)
    (hholds : LineReader.Holds ioSize st.reader (bodies.map (· ++ ['\n'])).flatten)
    (hbuf : ShortWords st.buf) (h : parseLoop cb n st = some (ret, st')) :
    ∃ new, ReadsLines cb bodies st ret st' new := by
  induction n generalizing st bodies with
  | zero => exact absurd h nofun
  | succ n ih =>
    have hsize : 0 < ioSize := by decide
    rw [parseLoop] at h
    cases bodies with
    | nil =>
      -- at the end of the file no line is read
      obtain ⟨reader, hend, -⟩ := hholds.call_last hsize (List.forall_mem_nil _) (.inl rfl)
      have hstep : parseLine cb st = .done .ok { st with reader } := by
        rw [parseLine, hend]
        rfl
      rw [hstep] at h
      obtain ⟨rfl, rfl⟩ := Prod.ext_iff.mp (Option.some.inj h)
      exact ⟨[], .nil rfl rfl nofun fun _ _ => rfl⟩
    | cons body bodies =>
      obtain ⟨hfits, hbodies⟩ := List.forall_mem_cons.mp hbodies
      rw [List.map_cons, List.flatten_cons, List.append_assoc, List.singleton_append] at hholds
      have hlen : body.length < ((5000 : UInt64) - 1).toNat := hfits.length
      obtain ⟨reader, hread, hholds⟩ := hholds.call_line hsize hfits.plain hlen
      have hne : body ++ ['\n'] ≠ [] := List.concat_ne_nil _ _
      have hstep : parseLine cb st = scanLine cb (body ++ ['\n']) { st with reader } := by
        rw [parseLine, hread]
        exact if_neg hne
      have hbuf' : ShortWords
          (body ++ ['\n'] ++ st.buf.drop (body ++ ['\n']).length) := by
        rw [List.append_assoc]
        exact hfits.words.line fun t ht => hbuf t (ht.trans (List.drop_suffix _ _))
      rw [hstep] at h
      rcases scanLine_cases cb (LineReader.bufreadFrom_spec hread).1 { st with reader } with
        ⟨ret₁, heq, hret⟩ | ⟨b, hline, -, heq⟩
      · rw [heq] at h
        obtain ⟨rfl, rfl⟩ := Prod.ext_iff.mp (Option.some.inj h)
        obtain rfl : ret₁ = .einval := hret.resolve_right fun ⟨_, e, hscan, hlong⟩ =>
          absurd (name_length_lt hscan hbuf') (Nat.not_lt.mpr hlong)
        exact ⟨[], .nil rfl rfl nofun nofun⟩
      · have hstate := saveEntry_state cb b.entry { st with
          reader, buf := body ++ ['\n'] ++ st.buf.drop (body ++ ['\n']).length,
          built := st.built ++ [b] }
        rw [heq] at h
        split at h
        · next st₁ hagain =>
          rw [hagain] at hstate
          obtain rfl : st₁ = _ := hstate
          obtain ⟨new, hnew⟩ := ih hbodies hholds hbuf' h
          exact ⟨b :: new, .cons hline rfl rfl rfl hnew⟩
        · next ret₁ st₁ hdone =>
          obtain ⟨rfl, rfl⟩ := Prod.ext_iff.mp (Option.some.inj h)
          obtain ⟨hover, hsome⟩ := saveEntry_done hdone
          rw [hdone] at hstate
          obtain rfl : st₁ = _ := hstate
          refine ⟨[b], .cons hline rfl rfl rfl (.nil rfl rfl hover fun _ hcb => ?_)⟩
          rw [hcb] at hsome
          exact absurd hsome nofun

/-- **When a mapping depends only on its own line.**  For every content of the file, every state
    of the stack and every callback: an entry the function builds is the entry of its line alone if
    and only if the line is not disturbed by what the buffer holds behind it. -/
theorem built_entry_alone_iff {pid : ℤ} {content : Option (List Char)} {stack : List Char}
    {mapped : Entry → Bool} {cb : Callback κ} {cbArgs : κ} {ret : Status}
    {maps : List Entry} {built : List Built}
    (h : utilProcMapsParseFilter pid content stack mapped cb cbArgs = some (ret, maps, built))
    {b : Built} (hb : b ∈ built) :
    sscanfMaps b.line = some b.entry ↔ Undisturbed b.line b.behind := by
  cases content with
  | none =>
    obtain ⟨-, -, rfl⟩ : _ ∧ _ ∧ _ := by simpa [utilProcMapsParseFilter] using h
    exact absurd hb List.not_mem_nil
  | some content =>
    obtain ⟨⟨ret', st'⟩, hloop, heq⟩ := Option.map_eq_some_iff.mp h
    obtain ⟨-, -, rfl⟩ : _ ∧ _ ∧ st'.built = built := by simpa using heq
    exact sscanfMaps_append_iff (parseLoop_built hloop (List.forall_mem_nil _) b hb)

/-- The line of a heap, with the name where the kernel puts it. -/
def heapLine : List Char :=
  ['0', '0', 'e', '0', '3', '0', '0', '0', '-', '0', '0', 'e', '2', '4', '0', '0', '0', ' ', 'r',
   'w', '-', 'p', ' ', '0', '0', '0', '0', '0', '0', '0', '0', ' ', '0', '0', ':', '0', '0', ' ',
   '0', ' '] ++
    List.replicate 33 ' ' ++ ['[', 'h', 'e', 'a', 'p', ']', '\n']

/-- The line of an anonymous mapping behind it. -/
def anonLine : List Char :=
  ['7', 'f', '1', 'c', '2', 'a', '0', '0', '0', '0', '0', '0', '-', '7', 'f', '1', 'c', '2', 'a',
   '0', '2', '1', '0', '0', '0', ' ', 'r', 'w', '-', 'p', ' ', '0', '0', '0', '0', '0', '0', '0',
   '0', ' ', '0', '0', ':', '0', '0', ' ', '0', ' ', '\n']

/-- The parser on the two lines. -/
def heapAnonRun : Option (Status × List Entry × List Built) :=
  utilProcMapsParseFilter 1 (some (heapLine ++ anonLine)) [] (fun _ => true)
    (none : Option (Unit → Entry → ParseRet × Unit)) ()

theorem heapAnonRun_isSome : heapAnonRun.isSome := utilProcMapsParseFilter_isSome ..

/-- What it builds from them. -/
def heapAnonBuilt : List Built := (heapAnonRun.get heapAnonRun_isSome).2.2

theorem heapAnonRun_eq : ∃ ret maps, heapAnonRun = some (ret, maps, heapAnonBuilt) := by
  unfold heapAnonBuilt
  generalize heapAnonRun_isSome = h
  generalize heapAnonRun = run at h ⊢
  obtain ⟨⟨ret, maps, built⟩, rfl⟩ := Option.isSome_iff_exists.mp h
  exact ⟨ret, maps, rfl⟩

/-- The name of the heap ends in its line: the condition is met. -/
theorem built_entry_alone_iff_heap : ∃ b ∈ heapAnonBuilt, b.line = heapLine ∧
    sscanfMaps b.line = some b.entry := by
  obtain ⟨b, hb, hline, hund⟩ :
      ∃ b ∈ heapAnonBuilt, b.line = heapLine ∧ Undisturbed b.line b.behind := by decide +kernel
  obtain ⟨ret, maps, hrun⟩ := heapAnonRun_eq
  unfold heapAnonRun at hrun
  exact ⟨b, hb, hline, (built_entry_alone_iff hrun hb).mpr hund⟩

/-- **The failure.**  The anonymous mapping behind the heap gets the heap's name: its line is
    shorter, has no name, and the scan goes on into the rest of the heap's line. -/
theorem anonymous_gets_heap_name :
    ∃ b ∈ heapAnonBuilt, b.line = anonLine ∧ b.entry.name = ['[', 'h', 'e', 'a', 'p', ']'] ∧
      (sscanfMaps anonLine).map Entry.name = some [] := by
  decide +kernel

end Firestarter.Util
