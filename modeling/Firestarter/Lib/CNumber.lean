import Mathlib.Algebra.Group.Nat.Defs
import Mathlib.Data.List.TakeWhile
import Firestarter.Lib.Scan

namespace CNumber

open Scan

/-!
# Numbers in texts, as C reads them

The numbers that the conversions of `sscanf` and `strtoul` take from a text: white space, a sign
and digits, with values that do not fit replaced by the largest.

* `signText`, `decText`, `hexText`: the conversions;
* `NumText.ulong`, `strtoul`: the values;
* `local_decText`, `local_hexText`, `decText_append_of_end`: what text behind a number does to it.
-/

/-- `isspace` in the C locale. -/
def isSpace (c : Char) : Bool := c = ' ' || (9 ≤ c.toNat && c.toNat ≤ 13)

/-- `isdigit`. -/
def isDigit (c : Char) : Bool := 48 ≤ c.toNat && c.toNat ≤ 57

/-- `isxdigit`. -/
def isXDigit (c : Char) : Bool :=
  isDigit c || (97 ≤ c.toNat && c.toNat ≤ 102) || (65 ≤ c.toNat && c.toNat ≤ 70)

/-- The value of a hexadecimal digit. -/
def digitValue (c : Char) : ℕ :=
  if isDigit c then c.toNat - 48 else if 97 ≤ c.toNat then c.toNat - 87 else c.toNat - 55

/-- A number as `sscanf` collects it: whether it has a minus sign, and its digits. -/
structure NumText where
  minus : Bool
  digits : List Char
  deriving DecidableEq, Repr

/-- `strtoul`: values that do not fit become the largest, others are negated after a minus sign. -/
def NumText.ulong (base : ℕ) (t : NumText) : ℕ :=
  let n := t.digits.foldl (fun n c => n * base + digitValue c) 0
  if 2 ^ 64 ≤ n then 2 ^ 64 - 1 else if t.minus then (2 ^ 64 - n) % 2 ^ 64 else n

/-- The same, stored through a pointer to `int`. -/
def NumText.uint (base : ℕ) (t : NumText) : ℕ := t.ulong base % 2 ^ 32

/-- White space and an optional sign. -/
def signText : Scanner Char Bool := do
  skipWhile isSpace
  let minus ← skipIf (· = '-')
  if minus then pure true
  else do
    let _ ← skipIf (· = '+')
    pure false

/-- The digits of `%lu`. -/
def decText : Scanner Char NumText := do
  let minus ← signText
  let digits ← span isDigit
  if digits = [] then failure else pure ⟨minus, digits⟩

/-- The digits of `%lx`, `%llx` and `%x`, with an optional `0x` in front. -/
def hexText : Scanner Char NumText := do
  let minus ← signText
  let digits ← span isXDigit
  if digits = ['0'] then do
    let x ← skipIf (fun c => c = 'x' || c = 'X')
    if x then do
      let digits ← span isXDigit
      if digits = [] then failure else pure ⟨minus, digits⟩
    else pure ⟨minus, digits⟩
  else if digits = [] then failure else pure ⟨minus, digits⟩

/-- The base and the digits that `strtoul(.., 0)` finds behind the sign. -/
def strtoulDigits (s : List Char) : ℕ × List Char :=
  match s with
  | '0' :: 'x' :: d :: r | '0' :: 'X' :: d :: r =>
    if isXDigit d then (16, (d :: r).takeWhile isXDigit) else (8, ['0'])
  | '0' :: r => (8, ('0' :: r).takeWhile fun c => isDigit c && c.toNat < 56)
  | s => (10, s.takeWhile isDigit)

/-- `strtoul(s, NULL, 0)`, or `none` for a string without a number, for which it returns 0. -/
def strtoul (s : List Char) : Option ℕ :=
  match signText.run s with
  | none => none
  | some (minus, s) =>
    let (base, digits) := strtoulDigits s
    if digits = [] then none else some (NumText.ulong base ⟨minus, digits⟩)

/-! ### Text behind a number -/

theorem local_signText : Local signText :=
  (local_skipWhile _).bind fun _ => (local_skipIf _).bind fun minus => by
    cases minus with
    | true => exact local_pure true
    | false => exact (local_skipIf _).bind fun _ => local_pure false

/-- The digits a number ends with. -/
theorem local_digitsOrFail (minus : Bool) (digits : List Char) :
    Local (if digits = [] then failure else pure ⟨minus, digits⟩ : Scanner Char NumText) := by
  split_ifs
  · exact local_failure
  · exact local_pure _

theorem local_decText : Local decText :=
  local_signText.bind fun minus => (local_span _).bind fun digits =>
    local_digitsOrFail minus digits

theorem local_hexText : Local hexText :=
  local_signText.bind fun minus => (local_span _).bind fun digits => by
    split_ifs
    · refine (local_skipIf _).bind fun x => ?_
      cases x with
      | true => exact (local_span _).bind fun digits => local_digitsOrFail minus digits
      | false => exact local_pure _
    · exact local_failure
    · exact local_pure _

/-- A number needs a digit. -/
theorem decText_ne_nil {q r : List Char} {w : NumText} (h : decText.run q = some (w, r)) :
    q ≠ [] := by
  rintro rfl
  exact absurd h nofun

/-- A decimal number that reaches the end of the text: the text ends with its digits. -/
theorem decText_end {q : List Char} {w : NumText} (h : decText.run q = some (w, [])) :
    signText.run q = some (w.minus, w.digits) ∧ w.digits ≠ [] ∧ ∀ c ∈ w.digits, isDigit c := by
  obtain ⟨minus, p, hp, h⟩ := run_bind_eq_some.mp h
  obtain ⟨digits, rest, hspan, h⟩ := run_bind_eq_some.mp h
  obtain ⟨rfl, rfl⟩ := Prod.ext_iff.mp (Option.some.inj hspan)
  split_ifs at h with hnil
  · exact absurd h nofun
  obtain ⟨rfl, hrest⟩ := Prod.ext_iff.mp (Option.some.inj h)
  have hall : ∀ c ∈ p, isDigit c := List.dropWhile_eq_nil_iff.mp hrest
  have hpd : p.takeWhile isDigit = p := List.takeWhile_eq_self_iff.mpr hall
  rw [hpd] at hnil ⊢
  exact ⟨hp, hnil, hall⟩

/-- Such a number goes on with the digits behind the text. -/
theorem decText_append_of_end {q : List Char} {w : NumText} (h : decText.run q = some (w, []))
    (t : List Char) : decText.run (q ++ t) =
      some (⟨w.minus, w.digits ++ t.takeWhile isDigit⟩, t.dropWhile isDigit) := by
  obtain ⟨hsign, hne, hall⟩ := decText_end h
  refine run_bind_eq_some.mpr ⟨w.minus, w.digits ++ t, local_signText.stable hsign hne t, ?_⟩
  refine run_bind_eq_some.mpr ⟨w.digits ++ t.takeWhile isDigit, t.dropWhile isDigit, ?_, ?_⟩
  · exact congrArg₂ (fun v r => some (v, r)) (List.takeWhile_append_of_pos hall)
      (List.dropWhile_append_of_pos hall)
  · rw [if_neg (fun h => hne (List.append_eq_nil_iff.mp h).1)]
    rfl

end CNumber
