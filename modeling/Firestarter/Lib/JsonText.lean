import Mathlib.Data.List.Forall2
import Firestarter.Lib.Scan

namespace JsonText

open Scan

/-!
# JSON texts of numbers

Scanners for the part of JSON that consists of numbers without sign, fraction and exponent, of
arrays, and of objects whose keys need no escapes, with white space where JSON allows it; and
texts in that form.

* `number`, `array`, `object`, `parse`: the scanners;
* `decimal`, `listText`, `separated`: texts;
* `Reads`: a scanner reads a value from a text, whatever stands behind it;
* `reads_decimal`, `Reads.array`, `Reads.member`, `readsWhole_listText`: what the scanners read.
-/

variable {α : Type}

/-! ### Scanners -/

/-- White space between the tokens. -/
def isWs (c : Char) : Bool := c = ' ' || c = '\t' || c = '\n' || c = '\r'

/-- A number: digits, with no zero in front of others. -/
def number : Scanner Char ℕ := do
  let digits ← span Char.isDigit
  if digits = [] ∨ (digits.head? = some '0' ∧ digits ≠ ['0']) then failure
  else pure (Nat.ofDigitChars 10 digits 0)

/-- The elements of a list up to its end; `n` bounds their number. -/
def elements (item : Scanner Char α) (close : Char) : ℕ → Scanner Char (List α)
  | 0 => failure
  | n + 1 => do
    let x ← item
    skipWhile isWs
    let c ← Scan.item
    if c = close then pure [x]
    else if c = ',' then do
      skipWhile isWs
      let xs ← elements item close n
      pure (x :: xs)
    else failure

/-- A list in brackets. -/
def bracketed (opening close : Char) (item : Scanner Char α) : Scanner Char (List α) := do
  exactly opening
  skipWhile isWs
  let empty ← skipIf (· = close)
  if empty then pure []
  else do
    let rest ← get
    elements item close rest.length

def array (item : Scanner Char α) : Scanner Char (List α) := bracketed '[' ']' item

/-- A member of an object: a key in quotes, a colon and a value. -/
def member (value : Scanner Char α) : Scanner Char (List Char × α) := do
  exactly '"'
  let key ← span fun c => 32 ≤ c.toNat && c ≠ '"' && c.toNat ≠ 92
  exactly '"'
  skipWhile isWs
  exactly ':'
  skipWhile isWs
  let v ← value
  pure (key, v)

def object (value : Scanner Char α) : Scanner Char (List (List Char × α)) :=
  bracketed '\x7b' '\x7d' (member value)

/-- A whole text. -/
def parse (value : Scanner Char α) (text : List Char) : Option α :=
  match value.run (text.dropWhile isWs) with
  | some (v, rest) => if rest.all isWs then some v else none
  | none => none

/-! ### Texts -/

def decimal (n : ℕ) : List Char := Nat.toDigits 10 n

/-- A list in brackets, its elements separated by `sep`. -/
def listText (opening close : Char) (sep : List Char) (texts : List (List Char)) : List Char :=
  opening :: (sep.intercalate texts ++ [close])

/-- The elements as a loop writes them: a separator in front of all but the first. -/
def separated (sep : List Char) : Bool → List (List Char) → List Char
  | _, [] => []
  | isFirst, text :: texts => (if isFirst then [] else sep) ++ text ++ separated sep false texts

theorem separated_eq_intercalate (sep : List Char) (texts : List (List Char)) :
    separated sep true texts = sep.intercalate texts := by
  induction texts with
  | nil => rfl
  | cons text texts ih =>
    cases texts with
    | nil => simp [separated]
    | cons next texts =>
      rw [List.intercalate_cons_cons, ← ih]
      simp [separated]

/-- A member of an object. -/
def memberText (key text : List Char) : List Char := '"' :: (key ++ '"' :: ':' :: text)

/-! ### What is read from a text -/

/-- A character that an element can start with. -/
def Starts (c : Char) : Prop := isWs c = false ∧ c ≠ ']' ∧ c ≠ '\x7d'

/-- `item` reads `x` from `text`, whatever stands behind it, digits apart. -/
structure Reads (item : Scanner Char α) (x : α) (text : List Char) : Prop where
  starts : ∃ c r, text = c :: r ∧ Starts c
  run : ∀ c t, c.isDigit = false → item.run (text ++ c :: t) = some (x, c :: t)

variable {c : Char} {ws t : List Char} {x : α}

/-- Digits are not white space and do not close anything. -/
theorem starts_of_isDigit (h : c.isDigit = true) : Starts c := by
  refine ⟨?_, ?_, ?_⟩
  · by_contra hws
    simp only [isWs, Bool.not_eq_false, Bool.or_eq_true, decide_eq_true_eq] at hws
    rcases hws with ((rfl | rfl) | rfl) | rfl <;> exact absurd h (by decide)
  all_goals
    rintro rfl
    exact absurd h (by decide)

/-- A number has no zero in front of other digits. -/
theorem head_decimal {n : ℕ} (h : (decimal n).head? = some '0') : n = 0 := by
  induction n using Nat.strongRecOn with
  | _ n ih =>
    rw [decimal, Nat.toDigits_eq_if (by decide)] at h
    split_ifs at h with hlt
    · have hall : ∀ d < 10, Nat.digitChar d = '0' → d = 0 := by decide
      exact hall n hlt (Option.some.inj h)
    · rw [List.head?_append_of_ne_nil _ Nat.toDigits_ne_nil] at h
      have := ih (n / 10) (by omega) h
      omega

/-- A span of symbols up to the first that does not belong to it. -/
theorem run_span {σ : Type} {p : σ → Bool} {s t : List σ} {c : σ} (hs : ∀ d ∈ s, p d = true)
    (hc : p c = false) : (span p).run (s ++ c :: t) = some (s, c :: t) := by
  show some ((s ++ c :: t).takeWhile p, (s ++ c :: t).dropWhile p) = _
  rw [List.takeWhile_append_of_pos hs, List.dropWhile_append_of_pos hs,
    List.takeWhile_cons_of_neg (by simp [hc]), List.dropWhile_cons_of_neg (by simp [hc]),
    List.append_nil]

/-- White space, skipped up to something else. -/
theorem run_skipWs (hws : ∀ d ∈ ws, isWs d = true) (hc : isWs c = false) :
    (skipWhile isWs).run (ws ++ c :: t) = some ((), c :: t) := by
  show some ((), (ws ++ c :: t).dropWhile isWs) = _
  rw [List.dropWhile_append_of_pos hws, List.dropWhile_cons_of_neg (by simp [hc])]

theorem run_skipWs_nil (hc : isWs c = false) : (skipWhile isWs).run (c :: t) = some ((), c :: t) :=
  run_skipWs (List.forall_mem_nil _) hc

theorem run_exactly (c : Char) (t : List Char) : (exactly c).run (c :: t) = some ((), t) :=
  if_pos rfl

/-- A decimal number is read back. -/
theorem reads_decimal (n : ℕ) : Reads number n (decimal n) := by
  have hdigits : ∀ c ∈ decimal n, c.isDigit = true := fun c hc =>
    Nat.isDigit_of_mem_toDigits (by decide) (by decide) hc
  refine ⟨?_, fun c t hc => ?_⟩
  · obtain ⟨c, r, htext⟩ := List.exists_cons_of_ne_nil (l := decimal n) Nat.toDigits_ne_nil
    exact ⟨c, r, htext, starts_of_isDigit (hdigits c (by simp [htext]))⟩
  · refine run_bind_eq_some.mpr ⟨decimal n, c :: t, run_span hdigits hc, ?_⟩
    rw [if_neg]
    · rw [decimal, Nat.ofDigitChars_ten_toDigits]
      rfl
    · rintro (hnil | ⟨hzero, hne⟩)
      · exact Nat.toDigits_ne_nil hnil
      · exact hne (by rw [head_decimal hzero, decimal, Nat.toDigits_zero])

/-- The elements behind an opening bracket. -/
theorem run_elements {item : Scanner Char α} {close : Char} (hws : ∀ d ∈ ws, isWs d = true)
    (hclose : isWs close = false) (hdigit : close.isDigit = false) (hcomma : ',' ≠ close)
    {text : List Char} {xs : List α} {texts : List (List Char)} (hx : Reads item x text)
    (hxs : List.Forall₂ (Reads item) xs texts) {n : ℕ} (hn : xs.length < n) :
    (elements item close n).run ((',' :: ws).intercalate (text :: texts) ++ close :: t) =
      some (x :: xs, t) := by
  induction hxs generalizing x text n with
  | nil =>
    obtain ⟨n, rfl⟩ : ∃ m, n = m + 1 := ⟨n - 1, by simp at hn; omega⟩
    rw [List.intercalate_singleton]
    refine run_bind_eq_some.mpr ⟨x, close :: t, hx.run close t hdigit, ?_⟩
    refine run_bind_eq_some.mpr ⟨(), close :: t, run_skipWs_nil hclose, ?_⟩
    refine run_bind_eq_some.mpr ⟨close, t, rfl, ?_⟩
    rw [if_pos rfl]
    rfl
  | @cons y ytext ys ytexts hy hys ih =>
    obtain ⟨n, rfl⟩ : ∃ m, n = m + 1 := ⟨n - 1, by simp at hn; omega⟩
    obtain ⟨c, r, htext, hstarts⟩ := hy.starts
    have hsplit : (',' :: ws).intercalate (text :: ytext :: ytexts) ++ close :: t =
        text ++ ',' :: (ws ++ ((',' :: ws).intercalate (ytext :: ytexts) ++ close :: t)) := by
      simp [List.intercalate_cons_cons]
    have hhead : ∃ rest, (',' :: ws).intercalate (ytext :: ytexts) ++ close :: t = c :: rest := by
      cases ytexts <;> simp [List.intercalate_cons_cons, htext]
    obtain ⟨rest, hrest⟩ := hhead
    rw [hsplit]
    refine run_bind_eq_some.mpr ⟨x, _, hx.run ',' _ (by decide), ?_⟩
    refine run_bind_eq_some.mpr ⟨(), _, run_skipWs_nil (by decide), ?_⟩
    refine run_bind_eq_some.mpr ⟨',', _, rfl, ?_⟩
    rw [if_neg hcomma, if_pos rfl]
    refine run_bind_eq_some.mpr ⟨(), c :: rest, ?_, ?_⟩
    · rw [hrest]
      exact run_skipWs hws hstarts.1
    · refine run_bind_eq_some.mpr ⟨y :: ys, t, ?_, rfl⟩
      rw [← hrest]
      exact ih hy (by simp at hn; omega)

/-- A text has room for the elements behind its first. -/
theorem length_lt_intercalate (ws text : List Char) (texts : List (List Char)) (close : Char)
    (t : List Char) :
    texts.length < ((',' :: ws).intercalate (text :: texts) ++ close :: t).length := by
  induction texts generalizing text with
  | nil =>
    rw [List.length_nil, List.length_append, List.length_cons]
    omega
  | cons next texts ih =>
    have := ih next
    simp only [List.intercalate_cons_cons, List.length_append, List.length_cons] at this ⊢
    omega

/-- A list in brackets is read back. -/
theorem run_bracketed {item : Scanner Char α} {opening close : Char} {ws t : List Char}
    (hws : ∀ d ∈ ws, isWs d = true) (hclose : close = ']' ∨ close = '\x7d') {xs : List α}
    {texts : List (List Char)} (hxs : List.Forall₂ (Reads item) xs texts) :
    (bracketed opening close item).run (listText opening close (',' :: ws) texts ++ t) =
      some (xs, t) := by
  have hshape : isWs close = false ∧ close.isDigit = false ∧ ',' ≠ close := by
    rcases hclose with rfl | rfl <;> decide
  obtain ⟨hcws, hdigit, hcomma⟩ := hshape
  rw [listText, List.cons_append, List.append_assoc, List.singleton_append]
  refine run_bind_eq_some.mpr ⟨(), _, run_exactly opening _, ?_⟩
  cases hxs with
  | nil =>
    refine run_bind_eq_some.mpr ⟨(), close :: t, run_skipWs_nil hcws, ?_⟩
    exact run_bind_eq_some.mpr ⟨true, t, if_pos (by simp), rfl⟩
  | @cons x text xs texts hx hxs =>
    obtain ⟨c, r, htext, hstarts⟩ := hx.starts
    have hne : c ≠ close := by
      rcases hclose with rfl | rfl
      · exact hstarts.2.1
      · exact hstarts.2.2
    -- the first element starts behind the bracket
    obtain ⟨rest, hrest⟩ : ∃ rest,
        (',' :: ws).intercalate (text :: texts) ++ close :: t = c :: rest := by
      cases texts <;> simp [List.intercalate_cons_cons, htext]
    have hlength : xs.length < ((',' :: ws).intercalate (text :: texts) ++ close :: t).length := by
      rw [hxs.length_eq]
      exact length_lt_intercalate ws text texts close t
    have helements := run_elements hws hcws hdigit hcomma hx hxs hlength (t := t)
    rw [hrest] at helements ⊢
    refine run_bind_eq_some.mpr ⟨(), c :: rest, run_skipWs_nil hstarts.1, ?_⟩
    refine run_bind_eq_some.mpr ⟨false, c :: rest, if_neg (by simpa using hne), ?_⟩
    exact run_bind_eq_some.mpr ⟨c :: rest, c :: rest, rfl, helements⟩

/-- An array of elements that are read is read. -/
theorem Reads.array {item : Scanner Char α} (hws : ∀ d ∈ ws, isWs d = true) {xs : List α}
    {texts : List (List Char)} (hxs : List.Forall₂ (Reads item) xs texts) :
    Reads (array item) xs (listText '[' ']' (',' :: ws) texts) where
  starts := ⟨'[', _, rfl, by decide, by decide, by decide⟩
  run _ _ _ := run_bracketed hws (Or.inl rfl) hxs

/-- A member with digits as its key. -/
theorem Reads.member {value : Scanner Char α} {key text : List Char}
    (hkey : ∀ c ∈ key, c.isDigit = true) (hx : Reads value x text) :
    Reads (member value) (key, x) (memberText key text) where
  starts := ⟨'"', _, rfl, by decide, by decide, by decide⟩
  run c t hc := by
    obtain ⟨d, r, htext, hstarts⟩ := hx.starts
    have hplain : ∀ c ∈ key, (32 ≤ c.toNat && c ≠ '"' && c.toNat ≠ 92) = true := by
      intro c hc
      have hdigit := Char.isDigit_iff_toNat.mp (hkey c hc)
      have hlo : '0'.toNat = 48 := rfl
      have hhi : '9'.toNat = 57 := rfl
      have hquote : c ≠ '"' := by
        rintro rfl
        exact absurd (hkey _ hc) (by decide)
      simp [hquote]
      omega
    have hvalue := hx.run c t hc
    rw [htext] at hvalue
    simp only [memberText, List.cons_append, List.append_assoc, htext] at hvalue ⊢
    refine run_bind_eq_some.mpr ⟨(), _, run_exactly '"' _, ?_⟩
    refine run_bind_eq_some.mpr ⟨key, _, run_span hplain (by decide), ?_⟩
    refine run_bind_eq_some.mpr ⟨(), _, run_exactly '"' _, ?_⟩
    refine run_bind_eq_some.mpr ⟨(), _, run_skipWs_nil (by decide), ?_⟩
    refine run_bind_eq_some.mpr ⟨(), _, run_exactly ':' _, ?_⟩
    refine run_bind_eq_some.mpr ⟨(), _, run_skipWs_nil hstarts.1, ?_⟩
    exact run_bind_eq_some.mpr ⟨x, c :: t, hvalue, rfl⟩

/-- `value` reads `x` from `text`, and nothing but white space may follow. -/
structure ReadsWhole (value : Scanner Char α) (x : α) (text : List Char) : Prop where
  parse : ∀ rest, parse value (text ++ rest) = if rest.all isWs then some x else none
  visible : text.all isWs = false

theorem ReadsWhole.parse_self {value : Scanner Char α} {text : List Char}
    (h : ReadsWhole value x text) : JsonText.parse value text = some x := by
  have hparse := h.parse []
  rwa [List.append_nil] at hparse

/-- A list in brackets with white space behind it. -/
theorem readsWhole_listText {item : Scanner Char α} {opening close : Char} {ws tail : List Char}
    (hws : ∀ d ∈ ws, isWs d = true) (hopening : isWs opening = false)
    (hclose : close = ']' ∨ close = '\x7d') (htail : ∀ d ∈ tail, isWs d = true) {xs : List α}
    {texts : List (List Char)} (hxs : List.Forall₂ (Reads item) xs texts) :
    ReadsWhole (bracketed opening close item) xs
      (listText opening close (',' :: ws) texts ++ tail) where
  parse rest := by
    have hdrop : ∀ t, (listText opening close (',' :: ws) texts ++ t).dropWhile isWs =
        listText opening close (',' :: ws) texts ++ t :=
      fun t => List.dropWhile_cons_of_neg (by simp [hopening])
    have hall : tail.all isWs = true := List.all_eq_true.mpr htail
    rw [JsonText.parse, List.append_assoc, hdrop, run_bracketed hws hclose hxs]
    simp only [List.all_append, hall, Bool.true_and]
  visible := by simp [listText, hopening]

end JsonText
