import Mathlib.Data.List.Chain
import Firestarter.Lib.JsonText

namespace Firestarter.Edfi.HypermemStats

open Scan
open JsonText (decimal number reads_decimal run_exactly)

/-!
# The run-length statistics line (`edfi_print_hypermemlike_stats` in `edfi_df.c`)

The execution counts of all blocks are printed on one line, equal neighbours as one token.  `long`
has 64 bits, and `i` and `repeats` do not overflow.

* `statsTokens`, `statsLine` — the code;
* `readLine`, `expand` — a reader of the line;
* `statsTokens_expand`, `statsTokens_apart` — the tokens are the runs of the counts;
* `statsLine_lossless` — the counts can be read back from the line.
-/

/-! ### The code -/

/-- What is printed between two blanks: `c`, or `c` and `r` with an `x` between them. -/
inductive Token
  | one (count : ℕ)
  | many (count repeats : ℕ)
  deriving DecidableEq

/-- The variables of the loop, and what has been printed. -/
structure Loop where
  countrep : UInt64
  repeats : ℕ
  printed : List Token

/-- The run that has not been printed yet. -/
def flush (countrep : UInt64) (repeats : ℕ) : List Token :=
  if repeats = 1 then [.one countrep.toNat]
  else if repeats ≠ 0 then [.many countrep.toNat repeats]
  else []

/-- One pass of the loop. -/
def Loop.next (st : Loop) (count : UInt64) : Loop :=
  if st.countrep = count then { st with repeats := st.repeats + 1 }
  else
    { printed := st.printed ++ flush st.countrep st.repeats
      countrep := count
      repeats := 1 }

/-- The loop, from the run of no zeros. -/
def loop (counts : List UInt64) : Loop := counts.foldl Loop.next ⟨0, 0, []⟩

/-- The tokens for the counts `bb_num_executions[1..num_bbs]`. -/
def statsTokens (counts : List UInt64) : List Token :=
  (loop counts).printed ++ flush (loop counts).countrep (loop counts).repeats

/-- `" %lu"` and `" %lux%u"`. -/
def Token.text : Token → List Char
  | .one count => ' ' :: decimal count
  | .many count repeats => ' ' :: (decimal count ++ 'x' :: decimal repeats)

/-- The header line. -/
def header : List Char := "\n[edfi-hypermemlike-stats]\n".toList

/-- What the line starts with. -/
def lineStart (moduleName : List Char) : List Char :=
  "edfi_dump_stats_module name=".toList ++ moduleName

/-- `edfi_print_hypermemlike_stats`. -/
def statsLine (moduleName : List Char) (counts : List UInt64) : List Char :=
  header ++ lineStart moduleName ++ (statsTokens counts).flatMap Token.text ++ ['\n']

/-! ### A reader -/

/-- Read one token. -/
def readToken : Scanner Char Token := do
  exactly ' '
  let count ← number
  let isMany ← skipIf (· = 'x')
  if isMany then do
    let repeats ← number
    pure (.many count repeats)
  else pure (.one count)

/-- Read tokens up to the end of the line; `n` bounds their number. -/
def readTokens : ℕ → Scanner Char (List Token)
  | 0 => failure
  | n + 1 => do
    let isEnd ← skipIf (· = '\n')
    if isEnd then pure []
    else do
      let token ← readToken
      let tokens ← readTokens n
      pure (token :: tokens)

/-- The count of a token. -/
def Token.count : Token → ℕ
  | .one count => count
  | .many count _ => count

/-- The counts that a token stands for. -/
def Token.expand : Token → List ℕ
  | .one count => [count]
  | .many count repeats => List.replicate repeats count

/-- The counts that tokens stand for. -/
def expand (tokens : List Token) : List ℕ := tokens.flatMap Token.expand

/-! ### The loop -/

theorem expand_flush (countrep : UInt64) (repeats : ℕ) :
    expand (flush countrep repeats) = List.replicate repeats countrep.toNat := by
  rw [flush]
  split_ifs with hone hmany
  · rw [hone]
    rfl
  · simp [expand, Token.expand]
  · rw [not_not.mp hmany]
    rfl

/-- The tokens of a run that is not empty have its count. -/
theorem count_flush {countrep : UInt64} {repeats : ℕ} (h : repeats ≠ 0) :
    (flush countrep repeats).map Token.count = [countrep.toNat] := by
  rw [flush]
  split_ifs <;> rfl

/-- **The invariant of the loop**: what has been printed and the pending run are the counts so
    far, and no two neighbours are equal. -/
structure Loop.Inv (st : Loop) (seen : List UInt64) : Prop where
  expand : expand st.printed ++ List.replicate st.repeats st.countrep.toNat =
    seen.map UInt64.toNat
  apart : (st.printed.map Token.count ++ [st.countrep.toNat]).IsChain (· ≠ ·)
  start : st.repeats = 0 → st.printed = []

/-- One pass keeps it. -/
theorem Loop.Inv.next {st : Loop} {seen : List UInt64} (h : st.Inv seen) (count : UInt64) :
    (st.next count).Inv (seen ++ [count]) := by
  rw [Loop.next]
  by_cases heq : st.countrep = count
  · rw [if_pos heq]
    refine ⟨?_, h.apart, fun hzero => absurd hzero (Nat.succ_ne_zero _)⟩
    rw [List.replicate_succ', ← List.append_assoc, h.expand, List.map_append, heq]
    rfl
  · rw [if_neg heq]
    refine ⟨?_, ?_, fun hzero => absurd hzero Nat.one_ne_zero⟩
    · show HypermemStats.expand (st.printed ++ flush st.countrep st.repeats) ++ [count.toNat] = _
      rw [HypermemStats.expand, List.flatMap_append, ← HypermemStats.expand,
        ← HypermemStats.expand, expand_flush, h.expand, List.map_append]
      rfl
    · show ((st.printed ++ flush st.countrep st.repeats).map Token.count ++
        [count.toNat]).IsChain (· ≠ ·)
      by_cases hzero : st.repeats = 0
      · -- the run of no zeros at the beginning leaves no token
        rw [h.start hzero, hzero]
        exact List.isChain_singleton _
      · rw [List.map_append, count_flush hzero]
        refine List.isChain_append.mpr ⟨h.apart, List.isChain_singleton _, ?_⟩
        intro x hx y hy
        rw [List.getLast?_append_of_ne_nil _ (List.cons_ne_nil _ _)] at hx
        obtain rfl := Option.some.inj hx
        obtain rfl := Option.some.inj hy
        exact fun htoNat => heq (UInt64.toNat_inj.mp htoNat)

/-- The whole loop keeps it. -/
theorem loop_inv (counts : List UInt64) : (loop counts).Inv counts := by
  have hrun : ∀ (counts seen : List UInt64) (st : Loop), st.Inv seen →
      (counts.foldl Loop.next st).Inv (seen ++ counts) := by
    intro counts
    induction counts with
    | nil =>
      intro seen st h
      rwa [List.append_nil]
    | cons count counts ih =>
      intro seen st h
      rw [List.foldl_cons, List.append_cons]
      exact ih _ _ (h.next count)
  exact hrun counts [] ⟨0, 0, []⟩ ⟨rfl, List.isChain_singleton _, fun _ => rfl⟩

/-- The tokens stand for the counts. -/
theorem statsTokens_expand (counts : List UInt64) :
    expand (statsTokens counts) = counts.map UInt64.toNat := by
  have h := (loop_inv counts).expand
  rw [statsTokens, expand, List.flatMap_append, ← expand, ← expand, expand_flush, h]

/-- Neighbouring tokens have different counts. -/
theorem statsTokens_apart (counts : List UInt64) :
    ((statsTokens counts).map Token.count).IsChain (· ≠ ·) := by
  have h := loop_inv counts
  rw [statsTokens, List.map_append]
  by_cases hzero : (loop counts).repeats = 0
  · rw [h.start hzero, hzero]
    exact List.IsChain.nil
  · rw [count_flush hzero]
    exact h.apart

/-! ### The line -/

/-- A token is read back, whatever stands behind it, digits and an `x` apart. -/
theorem run_readToken (token : Token) {c : Char} (hdigit : c.isDigit = false) (hx : c ≠ 'x')
    (rest : List Char) : readToken.run (token.text ++ c :: rest) = some (token, c :: rest) := by
  cases token with
  | one count =>
    refine run_bind_eq_some.mpr ⟨(), _, run_exactly ' ' _, ?_⟩
    refine run_bind_eq_some.mpr ⟨count, _, (reads_decimal count).run c rest hdigit, ?_⟩
    exact run_bind_eq_some.mpr ⟨false, c :: rest, if_neg (by simpa using hx), rfl⟩
  | many count repeats =>
    have htext : (Token.many count repeats).text ++ c :: rest =
        ' ' :: (decimal count ++ 'x' :: (decimal repeats ++ c :: rest)) := by
      simp [Token.text]
    rw [htext]
    refine run_bind_eq_some.mpr ⟨(), _, run_exactly ' ' _, ?_⟩
    refine run_bind_eq_some.mpr ⟨count, _, (reads_decimal count).run 'x' _ (by decide), ?_⟩
    refine run_bind_eq_some.mpr ⟨true, _, rfl, ?_⟩
    exact run_bind_eq_some.mpr ⟨repeats, _, (reads_decimal repeats).run c rest hdigit, rfl⟩

/-- Behind a token stands a blank or the end of the line. -/
theorem tokens_head (tokens : List Token) : ∃ c rest,
    tokens.flatMap Token.text ++ ['\n'] = c :: rest ∧ c.isDigit = false ∧ c ≠ 'x' := by
  cases tokens with
  | nil => exact ⟨'\n', [], rfl, by decide, by decide⟩
  | cons token tokens =>
    cases token <;> exact ⟨' ', _, rfl, by decide, by decide⟩

/-- The tokens of a line are read back. -/
theorem run_readTokens {tokens : List Token} {n : ℕ} (hn : tokens.length < n) :
    (readTokens n).run (tokens.flatMap Token.text ++ ['\n']) = some (tokens, []) := by
  induction tokens generalizing n with
  | nil =>
    obtain ⟨n, rfl⟩ := Nat.exists_eq_succ_of_ne_zero (Nat.ne_of_gt hn)
    exact run_bind_eq_some.mpr ⟨true, [], rfl, rfl⟩
  | cons token tokens ih =>
    obtain ⟨n, rfl⟩ := Nat.exists_eq_succ_of_ne_zero (Nat.ne_of_gt (Nat.lt_of_le_of_lt
      (Nat.zero_le _) hn))
    obtain ⟨c, rest, hrest, hdigit, hx⟩ := tokens_head tokens
    obtain ⟨tail, htail⟩ : ∃ tail, token.text = ' ' :: tail := by
      cases token <;> exact ⟨_, rfl⟩
    rw [List.flatMap_cons, List.append_assoc]
    refine run_bind_eq_some.mpr ⟨false, token.text ++ (tokens.flatMap Token.text ++ ['\n']), ?_, ?_⟩
    · rw [htail]
      rfl
    · refine run_bind_eq_some.mpr ⟨token, tokens.flatMap Token.text ++ ['\n'], ?_, ?_⟩
      · rw [hrest]
        exact run_readToken token hdigit hx rest
      · exact run_bind_eq_some.mpr
          ⟨tokens, [], ih (Nat.lt_of_succ_lt_succ hn), rfl⟩

/-- Each token has a blank of its own. -/
theorem length_le_text (tokens : List Token) :
    tokens.length ≤ (tokens.flatMap Token.text).length := by
  induction tokens with
  | nil => exact Nat.le_refl 0
  | cons token tokens ih =>
    have hpos : 0 < token.text.length := by cases token <;> exact Nat.succ_pos _
    rw [List.flatMap_cons, List.length_append, List.length_cons]
    omega

/-- The tokens of a line, behind the module name. -/
def readLine (moduleName line : List Char) : Option (List Token) :=
  let text := line.drop (header ++ lineStart moduleName).length
  ((readTokens text.length).run text).map Prod.fst

/-- **The statistics line is lossless.** A reader finds tokens behind the module name; they stand
    for the counts in order, and no two neighbours have the same count. -/
theorem statsLine_lossless (moduleName : List Char) (counts : List UInt64) :
    ∃ tokens, readLine moduleName (statsLine moduleName counts) = some tokens ∧
      expand tokens = counts.map UInt64.toNat ∧ (tokens.map Token.count).IsChain (· ≠ ·) := by
  refine ⟨statsTokens counts, ?_, statsTokens_expand counts, statsTokens_apart counts⟩
  have hdrop : (statsLine moduleName counts).drop (header ++ lineStart moduleName).length =
      (statsTokens counts).flatMap Token.text ++ ['\n'] := by
    rw [statsLine, List.append_assoc, List.drop_left]
  have hlength := length_le_text (statsTokens counts)
  simp only [readLine, hdrop]
  rw [run_readTokens (by rw [List.length_append, List.length_singleton]; omega)]
  rfl

/-- Leading zeros, a run and a single count. -/
example : statsTokens [0, 0, 7, 7, 7, 3] = [.many 0 2, .many 7 3, .one 3] := by decide

end Firestarter.Edfi.HypermemStats
