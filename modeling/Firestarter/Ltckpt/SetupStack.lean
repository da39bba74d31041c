import Mathlib.Algebra.Group.Nat.Defs
import Firestarter.Lib.MemLayout
import Firestarter.Ltckpt.Writelog

namespace Firestarter.Ltckpt.SetupStack

open FlatMem

/-!
# Moving the initial stack (`arch/x64/ltckpt_common.c`)

Before `main` runs, the library copies the stack that the kernel built to an area of its own.
`ltckpt_setup_stack` looks for the top of the old stack behind the strings that `argv` and the
environment point to, moves their pointers by the distance of the two stacks, copies the stack and
puts the arguments of `__libc_start_main` below the copy.

* `ltckptSetupStack` — the function, with fuel for its loops;
* `InitialStack` — **a well-formed stack**, from `argc` to the zero marker;
* `locateTop_eq`, `moveVectors_spec` — the loops of the two halves;
* `ltckptSetupStack_relocates` — the copy is the old stack at another place.
-/

/-! ### The function -/

/-- `ltckpt_early_init_data_t`, as far as the function reads it. -/
structure EarlyInitData where
  main : ℕ
  argc : ℕ
  ubpAv : ℕ
  init : ℕ
  fini : ℕ
  rtldFini : ℕ
  stackEnd : ℕ

/-- `CTX(allow_prctl)`, and whether `prctl(PR_SET_MM, op, value)` succeeds. -/
structure Kernel where
  allowPrctl : Bool
  prctl : ℕ → ℕ → Bool

/-- How a call ends; a call that returns leaves the memory and `environ`. -/
inductive Outcome
  | panicked
  | returned (newstack : ℕ) (mem : Mem) (environ : ℕ)

/-- Subtraction of `ltckpt_va_t` values. -/
def vaSub (a b : ℕ) : ℕ := ulong (a + 2 ^ 64 - b)

/-- `while (*p != 0) { if (last < *p) last = *p; p++; }`: where the loop ends, and the greatest
    pointer. -/
def scanVector (m : Mem) : ℕ → ℕ → ℕ → Option (ℕ × ℕ)
  | 0, _, _ => none
  | fuel + 1, p, last =>
    if readLE m p 8 = 0 then some (p, last)
    else scanVector m fuel (p + 8) (if last < readLE m p 8 then readLE m p 8 else last)

/-- `while (*s++ != 0);`. -/
def skipString (m : Mem) : ℕ → ℕ → Option ℕ
  | 0, _ => none
  | fuel + 1, s => if m s = 0 then some (s + 1) else skipString m fuel (s + 1)

/-- `while (*tmp != 0) *tmp++ -= stack_offset;`. -/
def moveVector (stackOffset : ℕ) : ℕ → Mem → ℕ → Option (Mem × ℕ)
  | 0, _, _ => none
  | fuel + 1, m, tmp =>
    if readLE m tmp 8 = 0 then some (m, tmp)
    else
      moveVector stackOffset fuel (writeLE m tmp 8 (vaSub (readLE m tmp 8) stackOffset)) (tmp + 8)

/-- What the first half of the function finds. -/
structure Located where
  environ : ℕ
  topOfStack : ℕ
  argvStart : ℕ
  argvEnd : ℕ
  envStart : ℕ
  envEnd : ℕ

/-- The first half: up to the alignment of `top_of_stack`. -/
def locateTop (fuel : ℕ) (m : Mem) (ubpAv : ℕ) : Option Located := do
  let (argvNull, last) ← scanVector m fuel ubpAv 0
  let environ := argvNull + 8
  let (envNull, last) ← scanVector m fuel environ last
  let s ← skipString m fuel last
  let s ← skipString m fuel s
  return {
    environ
    topOfStack := (s + 3) / 4 * 4
    argvStart := readLE m ubpAv 8
    argvEnd := readLE m environ 8
    envStart := readLE m environ 8
    envEnd := readLE m envNull 8 }

/-- The two loops that move the pointers. -/
def moveVectors (stackOffset fuel : ℕ) (m : Mem) (ubpAv : ℕ) : Option Mem := do
  let (m, tmp) ← moveVector stackOffset fuel m ubpAv
  let (m, _) ← moveVector stackOffset fuel m (tmp + 8)
  return m

/-- `memcpy`, which is undefined on overlapping areas. -/
def memcpy (m : Mem) (dst src n : ℕ) : Option Mem :=
  if Apart dst n src n then some (write m dst (read m src n)) else none

/-- The words below the copy, in the order in which they are stored.  The first word is left as it
    is. -/
def startFrame (eid : EarlyInitData) (stackOffset newstack : ℕ) : List (ℕ × List UInt8) :=
  [ (newstack - 16, wordLE 8 (vaSub eid.stackEnd stackOffset)),
    (newstack - 24, wordLE 8 eid.rtldFini),
    (newstack - 32, wordLE 8 eid.fini),
    (newstack - 40, wordLE 8 eid.init),
    (newstack - 48, wordLE 8 (vaSub eid.ubpAv stackOffset)),
    (newstack - 56, wordLE 8 eid.argc),
    (newstack - 64, wordLE 8 eid.main) ]

/-- The calls that tell the kernel: `PR_SET_MM_START_STACK`, `_ARG_START`, `_ARG_END`,
    `_ENV_START`, `_ENV_END`. -/
def prctls (l : Located) (stackOffset newStackTop : ℕ) : List (ℕ × ℕ) :=
  [ (5, newStackTop), (8, vaSub l.argvStart stackOffset), (9, vaSub l.argvEnd stackOffset),
    (10, vaSub l.envStart stackOffset), (11, vaSub l.envEnd stackOffset) ]

/-- The second half: the stack with top `l.topOfStack` is moved. -/
def relocate (kernel : Kernel) (fuel : ℕ) (m : Mem) (eid : EarlyInitData) (newStackTop : ℕ)
    (l : Located) : Option Outcome := do
  let stackOffset := vaSub (l.topOfStack + 8) newStackTop
  let m ← moveVectors stackOffset fuel m eid.ubpAv
  let src := vaSub eid.ubpAv 8
  let stackSize := vaSub l.topOfStack src
  let newstack := vaSub (vaSub newStackTop 8) stackSize
  let m ← memcpy m newstack src stackSize
  let m := writeAll m (startFrame eid stackOffset newstack)
  if kernel.allowPrctl && !(prctls l stackOffset newStackTop).all fun c => kernel.prctl c.1 c.2 then
    return .panicked
  else return .returned (newstack - 64) m (vaSub l.environ stackOffset)

/-- `ltckpt_setup_stack`; `none` when a loop runs out of fuel. -/
def ltckptSetupStack (kernel : Kernel) (fuel : ℕ) (m : Mem) (eid : EarlyInitData)
    (newStackTop : ℕ) : Option Outcome := do
  let l ← locateTop fuel m eid.ubpAv
  if readLE m l.topOfStack 8 ≠ 0 then return .panicked
  else relocate kernel fuel m eid newStackTop l

/-! ### Well-formed stacks -/

/-- **A well-formed initial stack.**  From below: `argc`, the pointers to the arguments, NULL, the
    pointers to the environment, NULL, the auxiliary vector; then the strings of arguments and
    environment, one more string and, at the next multiple of four, eight zero bytes.  What stands
    between the auxiliary vector and the strings is arbitrary. -/
structure InitialStack (m : Mem) (eid : EarlyInitData) where
  argv : List ℕ
  env : List ℕ
  auxv : List ℕ
  /-- where the strings start -/
  strings : ℕ
  /-- the strings of arguments and environment, the last one apart -/
  texts : List (List UInt8)
  last : List UInt8
  extra : List UInt8
  argc_below : 8 ≤ eid.ubpAv
  words : WordsAt m (eid.ubpAv - 8) (argv.length :: argv ++ 0 :: env ++ 0 :: auxv)
  argv_ne : ∀ q ∈ argv, q ≠ 0
  env_ne : ∀ q ∈ env, q ≠ 0
  auxv_below : eid.ubpAv + 8 * (argv.length + env.length + 2 + auxv.length) ≤ strings
  texts_at : StringsAt m strings (texts ++ [last] ++ [extra])
  pointers : ∀ q ∈ argv ++ env, q ∈ starts strings (texts ++ [last])
  last_used : strings + span texts ∈ argv ++ env
  marker : readLE m ((strings + span (texts ++ [last] ++ [extra]) + 3) / 4 * 4) 8 = 0
  bounded : (strings + span (texts ++ [last] ++ [extra]) + 3) / 4 * 4 + 8 ≤ 2 ^ 64

namespace InitialStack

variable {m : Mem} {eid : EarlyInitData} (st : InitialStack m eid)

/-- Where `argc` stands. -/
def bottom (_ : InitialStack m eid) : ℕ := eid.ubpAv - 8

/-- Where the zero marker stands. -/
def top : ℕ := (st.strings + span (st.texts ++ [st.last] ++ [st.extra]) + 3) / 4 * 4

/-- The bytes below the marker. -/
def size : ℕ := st.top - st.bottom

end InitialStack

/-- The new stack: room for the copy, the marker above and the frame below it, clear of the old
    stack. -/
structure NewStack {m : Mem} {eid : EarlyInitData} (st : InitialStack m eid) (newStackTop : ℕ) :
    Prop where
  room : 72 + st.size ≤ newStackTop
  bounded : newStackTop ≤ 2 ^ 64
  apart : Apart (newStackTop - 72 - st.size) (72 + st.size) st.bottom (st.size + 8)

/-- **What the move is for.**  With the copy of the old stack at `base`: the vectors of the new
    stack hold the old pointers moved along, with the same strings behind them, and end in NULL;
    `environ` and the argument vector pointer in the frame of `__libc_start_main` are those of the
    new stack.  On x86-64 `ltckpt_start` loads the arguments of `__libc_start_main` from the early
    init data, and not from this frame. -/
structure Relocated {m : Mem} {eid : EarlyInitData} (st : InitialStack m eid) (base newstack : ℕ)
    (m' : Mem) (environ : ℕ) : Prop where
  argv : WordsAt m' (base + 8) (st.argv.map (fun q => base + (q - st.bottom)) ++ [0])
  env : WordsAt m' (base + 8 * (st.argv.length + 2))
    (st.env.map (fun q => base + (q - st.bottom)) ++ [0])
  inside : ∀ q ∈ st.argv ++ st.env, st.bottom ≤ q ∧ q < st.top
  strings : ∀ q ∈ st.argv ++ st.env,
    ∃ t, StringAt m q t ∧ StringAt m' (base + (q - st.bottom)) t
  environ_eq : environ = base + 8 * (st.argv.length + 2)
  argvPointer : readLE m' (newstack + 16) 8 = base + 8

/-! ### The loops -/

/-- The loop over a vector ends at its NULL with the greatest pointer. -/
theorem scanVector_spec {m : Mem} {vs : List ℕ} (hne : ∀ v ∈ vs, v ≠ 0) {p fuel : ℕ} (last : ℕ)
    (h : WordsAt m p (vs ++ [0])) (hfuel : vs.length < fuel) :
    ∃ r, scanVector m fuel p last = some (p + 8 * vs.length, r) ∧ last ≤ r ∧
      (∀ v ∈ vs, v ≤ r) ∧ (r = last ∨ r ∈ vs) := by
  induction vs generalizing p last fuel with
  | nil =>
    obtain ⟨fuel, rfl⟩ := Nat.exists_eq_add_of_lt hfuel
    exact ⟨last, by rw [scanVector, if_pos h.1]; rfl, le_rfl, by simp, .inl rfl⟩
  | cons v vs ih =>
    obtain ⟨hv, hvs⟩ := h
    obtain ⟨k, rfl⟩ := Nat.exists_eq_add_of_lt hfuel
    have hv0 : readLE m p 8 ≠ 0 := by rw [hv]; exact hne v List.mem_cons_self
    have hend : p + 8 + 8 * vs.length = p + 8 * (v :: vs).length := by rw [List.length_cons]; omega
    generalize hlast : (if last < readLE m p 8 then readLE m p 8 else last) = last'
    obtain ⟨r, hr, hle, hall, hmem⟩ := ih (fun v hv => hne v (List.mem_cons_of_mem _ hv)) last' hvs
      (show vs.length < (v :: vs).length + k by rw [List.length_cons]; omega)
    have hlast' : last ≤ last' ∧ v ≤ last' ∧ (last' = last ∨ last' = v) := by
      rw [hv] at hlast
      split at hlast <;> omega
    refine ⟨r, ?_, by omega, ?_, ?_⟩
    · rw [scanVector, if_neg hv0, hlast, hr, hend]
    · intro w hw
      rcases List.mem_cons.mp hw with rfl | hw
      · omega
      · exact hall w hw
    · rcases hmem with rfl | hmem
      · rcases hlast'.2.2 with h | h
        · exact .inl h
        · exact .inr (h ▸ List.mem_cons_self)
      · exact .inr (List.mem_cons_of_mem _ hmem)

/-- The loop over a string ends behind its NUL. -/
theorem skipString_spec {m : Mem} {t : List UInt8} {a fuel : ℕ} (h : StringAt m a t)
    (hfuel : t.length < fuel) : skipString m fuel a = some (a + t.length + 1) := by
  induction t generalizing a fuel with
  | nil =>
    obtain ⟨k, rfl⟩ := Nat.exists_eq_add_of_lt hfuel
    have hnul : m a = 0 := List.head_eq_of_cons_eq h.1
    rw [skipString, if_pos hnul]
    rfl
  | cons c t ih =>
    obtain ⟨k, rfl⟩ := Nat.exists_eq_add_of_lt hfuel
    obtain ⟨hc, hne, ht⟩ := stringAt_cons.mp h
    rw [skipString, if_neg (hc ▸ hne), ih ht (by rw [List.length_cons]; omega),
      show a + 1 + t.length + 1 = a + (c :: t).length + 1 by rw [List.length_cons]; omega]

theorem vaSub_lt (a b : ℕ) : vaSub a b < 256 ^ 8 := by
  simp only [vaSub, ulong]
  omega

/-- The loop that moves a vector moves all its pointers, and nothing else. -/
theorem moveVector_spec (stackOffset : ℕ) {m : Mem} {vs : List ℕ} (hne : ∀ v ∈ vs, v ≠ 0)
    {p fuel : ℕ} (h : WordsAt m p (vs ++ [0])) (hfuel : vs.length < fuel) :
    ∃ m', moveVector stackOffset fuel m p = some (m', p + 8 * vs.length) ∧
      WordsAt m' p (vs.map (vaSub · stackOffset) ++ [0]) ∧
      ∀ x, x < p ∨ p + 8 * vs.length ≤ x → m' x = m x := by
  induction vs generalizing m p fuel with
  | nil =>
    obtain ⟨k, rfl⟩ := Nat.exists_eq_add_of_lt hfuel
    exact ⟨m, by rw [moveVector, if_pos h.1]; rfl, h, fun _ _ => rfl⟩
  | cons v vs ih =>
    obtain ⟨hv, hvs⟩ := h
    obtain ⟨k, rfl⟩ := Nat.exists_eq_add_of_lt hfuel
    have hv0 : readLE m p 8 ≠ 0 := by rw [hv]; exact hne v List.mem_cons_self
    -- the words behind are still the old ones
    have hvs : WordsAt (writeLE m p 8 (vaSub v stackOffset)) (p + 8) (vs ++ [0]) :=
      hvs.congr fun x hx _ => writeLE_of_outside m p 8 _ (.inr hx)
    obtain ⟨m', hm', hws, hframe⟩ := ih (fun v hv => hne v (List.mem_cons_of_mem _ hv)) hvs
      (show vs.length < (v :: vs).length + k by rw [List.length_cons]; omega)
    have hend : p + 8 + 8 * vs.length = p + 8 * (v :: vs).length := by rw [List.length_cons]; omega
    refine ⟨m', ?_, ⟨?_, hws⟩, fun x hx => ?_⟩
    · rw [moveVector, if_neg hv0, hv, hm', hend]
    · rw [readLE_congr fun i hi => hframe (p + i) (by omega)]
      exact readLE_writeLE m p (vaSub_lt v stackOffset)
    · rw [hframe x (by omega)]
      exact writeLE_of_outside m p 8 _ (by omega)

/-! ### The two halves on a well-formed stack -/

namespace InitialStack

variable {m : Mem} {eid : EarlyInitData} (st : InitialStack m eid)

/-- The parts of the array of words. -/
theorem vectors : WordsAt m eid.ubpAv (st.argv ++ [0]) ∧
    WordsAt m (eid.ubpAv + 8 * (st.argv.length + 1)) (st.env ++ [0]) := by
  have hlist : st.argv.length :: st.argv ++ 0 :: st.env ++ 0 :: st.auxv =
      st.argv.length :: ((st.argv ++ [0]) ++ ((st.env ++ [0]) ++ st.auxv)) := by
    simp
  have hwords := st.words
  rw [hlist, WordsAt, Nat.sub_add_cancel st.argc_below] at hwords
  obtain ⟨hargv, hrest⟩ := wordsAt_append.mp hwords.2
  rw [List.length_append] at hrest
  exact ⟨hargv, (wordsAt_append.mp hrest).1⟩

/-- The bounds of the parts. -/
theorem top_bounds : eid.ubpAv + 8 * (st.argv.length + st.env.length + 2) ≤ st.strings ∧
    st.strings + span st.texts + (st.last.length + 1) + (st.extra.length + 1) ≤ st.top ∧
    st.top + 8 ≤ 2 ^ 64 := by
  have hb := st.bounded
  have hs := st.auxv_below
  simp only [top, span_append, span] at *
  omega

/-- A pointer of the vectors points to a string below the top. -/
theorem pointer_string {q : ℕ} (hq : q ∈ st.argv ++ st.env) :
    ∃ t, StringAt m q t ∧ st.strings ≤ q ∧ q + (t.length + 1) ≤ st.top := by
  have htexts := (stringsAt_append.mp st.texts_at).1
  obtain ⟨t, ht, hlo, hhi⟩ := exists_stringAt htexts (st.pointers q hq)
  obtain ⟨-, htop, -⟩ := st.top_bounds
  simp only [span_append, span] at hhi
  exact ⟨t, ht, hlo, by omega⟩

/-- The last of the strings and the one behind it. -/
theorem last_strings : StringAt m (st.strings + span st.texts) st.last ∧
    StringAt m (st.strings + span st.texts + st.last.length + 1) st.extra := by
  have hall := st.texts_at
  rw [List.append_assoc, stringsAt_append] at hall
  exact ⟨hall.2.1, hall.2.2.1⟩

end InitialStack

variable {m : Mem} {eid : EarlyInitData}

/-- **The first half** finds the top of a well-formed stack, and where its environment starts. -/
theorem locateTop_eq (st : InitialStack m eid) {fuel : ℕ} (hfuel : st.size ≤ fuel) :
    ∃ l, locateTop fuel m eid.ubpAv = some l ∧ l.topOfStack = st.top ∧
      l.environ = eid.ubpAv + 8 * (st.argv.length + 1) := by
  obtain ⟨hvec, htop, -⟩ := st.top_bounds
  have hbelow := st.argc_below
  obtain ⟨hargv, henv⟩ := st.vectors
  obtain ⟨hlast, hextra⟩ := st.last_strings
  rw [InitialStack.size, InitialStack.bottom] at hfuel
  obtain ⟨r, hr, -, hall, hmem⟩ := scanVector_spec st.argv_ne 0 hargv
    (show st.argv.length < fuel by omega)
  obtain ⟨r', hr', hle, hall', hmem'⟩ := scanVector_spec st.env_ne r henv
    (show st.env.length < fuel by omega)
  -- the greatest pointer is that of the last string
  have hgreatest : r' = st.strings + span st.texts := by
    have hge : st.strings + span st.texts ≤ r' := by
      rcases List.mem_append.mp st.last_used with h | h
      · exact le_trans (hall _ h) hle
      · exact hall' _ h
    have hcases : r' = 0 ∨ r' ∈ st.argv ++ st.env := by
      rcases hmem' with rfl | h
      · exact hmem.imp_right (List.mem_append_left _)
      · exact .inr (List.mem_append_right _ h)
    rcases hcases with h | h
    · omega
    · exact le_antisymm (le_of_mem_starts (st.pointers r' h)) hge
  have hskip := skipString_spec hlast (show st.last.length < fuel by omega)
  have hskip' := skipString_spec hextra (show st.extra.length < fuel by omega)
  have henviron : eid.ubpAv + 8 * st.argv.length + 8 = eid.ubpAv + 8 * (st.argv.length + 1) := by
    omega
  simp only [locateTop, hr, Option.bind_eq_bind, Option.bind_some, henviron, hr', hgreatest, hskip,
    hskip']
  refine ⟨_, rfl, ?_, rfl⟩
  simp only [InitialStack.top, span_append, span]
  congr 2
  omega

/-- **The loops of the second half** move the pointers of both vectors, and leave the strings. -/
theorem moveVectors_spec (st : InitialStack m eid) (stackOffset : ℕ) {fuel : ℕ}
    (hfuel : st.size ≤ fuel) : ∃ m', moveVectors stackOffset fuel m eid.ubpAv = some m' ∧
      WordsAt m' eid.ubpAv (st.argv.map (vaSub · stackOffset) ++ [0]) ∧
      WordsAt m' (eid.ubpAv + 8 * (st.argv.length + 1))
        (st.env.map (vaSub · stackOffset) ++ [0]) ∧
      ∀ x, st.strings ≤ x → m' x = m x := by
  obtain ⟨hvec, htop, -⟩ := st.top_bounds
  obtain ⟨hargv, henv⟩ := st.vectors
  rw [InitialStack.size, InitialStack.bottom] at hfuel
  obtain ⟨m₁, hm₁, hargv₁, hframe₁⟩ := moveVector_spec stackOffset st.argv_ne hargv
    (show st.argv.length < fuel by omega)
  have henv₁ := henv.congr fun x hx _ => hframe₁ x (.inr (by omega))
  obtain ⟨m₂, hm₂, henv₂, hframe₂⟩ := moveVector_spec stackOffset st.env_ne henv₁
    (show st.env.length < fuel by omega)
  refine ⟨m₂, ?_, ?_, henv₂, fun x hx => ?_⟩
  · have htmp : eid.ubpAv + 8 * st.argv.length + 8 = eid.ubpAv + 8 * (st.argv.length + 1) := by
      omega
    simp only [moveVectors, hm₁, Option.bind_eq_bind, Option.bind_some, htmp, hm₂]
    rfl
  · -- the second loop starts behind the first vector
    refine hargv₁.congr fun x _ hx => hframe₂ x (.inl ?_)
    rw [List.length_append, List.length_map, List.length_singleton] at hx
    exact hx
  · rw [hframe₂ x (.inr (by omega)), hframe₁ x (.inr (by omega))]

/-! ### The copy -/

theorem vaSub_eq {a b : ℕ} (hle : b ≤ a) (hlt : a - b < 2 ^ 64) : vaSub a b = a - b := by
  simp only [vaSub, ulong]
  omega

/-- A copy of a stack whose vectors were moved is the stack at another place. -/
theorem relocated_of_copy {st : InitialStack m eid} {base newstack environ : ℕ} {m₁ m₂ : Mem}
    (hargv : WordsAt m₁ eid.ubpAv (st.argv.map (fun q => base + (q - st.bottom)) ++ [0]))
    (henv : WordsAt m₁ (eid.ubpAv + 8 * (st.argv.length + 1))
      (st.env.map (fun q => base + (q - st.bottom)) ++ [0]))
    (hframe : ∀ x, st.strings ≤ x → m₁ x = m x)
    (hcopy : read m₂ base st.size = read m₁ st.bottom st.size)
    (henviron : environ = base + 8 * (st.argv.length + 2))
    (hptr : readLE m₂ (newstack + 16) 8 = base + 8) : Relocated st base newstack m₂ environ := by
  obtain ⟨hvec, hstrings, -⟩ := st.top_bounds
  have hbelow := st.argc_below
  have hbottom : st.bottom + 8 = eid.ubpAv := Nat.sub_add_cancel hbelow
  have hsize : st.size = st.top - st.bottom := rfl
  refine ⟨?_, ?_, fun q hq => ?_, fun q hq => ?_, henviron, hptr⟩
  · refine WordsAt.shift hcopy (k := 8) ?_ (hbottom.symm ▸ hargv)
    rw [List.length_append, List.length_map, List.length_singleton]
    omega
  · have hslot : st.bottom + 8 * (st.argv.length + 2) = eid.ubpAv + 8 * (st.argv.length + 1) := by
      omega
    refine WordsAt.shift hcopy (k := 8 * (st.argv.length + 2)) ?_ (hslot.symm ▸ henv)
    rw [List.length_append, List.length_map, List.length_singleton]
    omega
  · obtain ⟨t, -, hlo, hhi⟩ := st.pointer_string hq
    omega
  · obtain ⟨t, ht, hlo, hhi⟩ := st.pointer_string hq
    have hq' : st.bottom + (q - st.bottom) = q := by omega
    have ht₁ : StringAt m₁ q t := ht.congr fun x hx => hframe x (le_trans hlo hx)
    exact ⟨t, ht, StringAt.shift hcopy (by omega) (hq'.symm ▸ ht₁)⟩

section Copy

variable {newStackTop : ℕ} {st : InitialStack m eid} (h : NewStack st newStackTop)

include h

/-- **The distance of the stacks**: an address of the old stack goes to the same offset in the
    copy, also where the distance is negative. -/
theorem NewStack.vaSub_offset {q : ℕ} (hlo : st.bottom ≤ q) (hhi : q ≤ st.top) :
    vaSub q (vaSub (st.top + 8) newStackTop) = newStackTop - 8 - st.size + (q - st.bottom) := by
  have hroom := h.room
  have hbound := h.bounded
  obtain ⟨-, -, htop⟩ := st.top_bounds
  simp only [vaSub, ulong, InitialStack.size] at *
  omega

/-- Where the function copies from and to, and how much. -/
theorem NewStack.addresses : vaSub eid.ubpAv 8 = st.bottom ∧ vaSub st.top st.bottom = st.size ∧
    vaSub (vaSub newStackTop 8) st.size = newStackTop - 8 - st.size := by
  have hroom := h.room
  have hbound := h.bounded
  have hbelow := st.argc_below
  obtain ⟨hvec, htop, htop'⟩ := st.top_bounds
  refine ⟨vaSub_eq hbelow (by omega), vaSub_eq ?_ ?_, ?_⟩
  · rw [InitialStack.bottom]; omega
  · omega
  · have hword : vaSub newStackTop 8 = newStackTop - 8 := vaSub_eq (by omega) (by omega)
    rw [hword]
    exact vaSub_eq (by omega) (by omega)

/-- The frame of `__libc_start_main` stands below the copy. -/
theorem NewStack.read_frame (m' : Mem) (stackOffset : ℕ) :
    read (writeAll m' (startFrame eid stackOffset (newStackTop - 8 - st.size)))
        (newStackTop - 8 - st.size) st.size = read m' (newStackTop - 8 - st.size) st.size := by
  have hroom := h.room
  refine read_writeAll_of_apart m' fun w hw => .inl ?_
  simp only [startFrame, List.mem_cons, List.not_mem_nil, or_false] at hw
  rcases hw with rfl | rfl | rfl | rfl | rfl | rfl | rfl <;> simp only [wordLE_length] <;> omega

/-- The argument vector pointer of the frame. -/
theorem NewStack.frame_argv (m' : Mem) (stackOffset : ℕ) :
    readLE (writeAll m' (startFrame eid stackOffset (newStackTop - 8 - st.size)))
      (newStackTop - 8 - st.size - 64 + 16) 8 = vaSub eid.ubpAv stackOffset := by
  have hroom := h.room
  have hslot : newStackTop - 8 - st.size - 64 + 16 = newStackTop - 8 - st.size - 48 := by omega
  -- two words are stored after it, both below
  simp only [writeAll, startFrame, List.foldl_cons, List.foldl_nil, hslot]
  rw [readLE_write_of_apart _ (.inl (by rw [wordLE_length]; omega)),
    readLE_write_of_apart _ (.inl (by rw [wordLE_length]; omega))]
  exact readLE_writeLE _ _ (vaSub_lt _ _)

/-- Pointers of the old stack, moved. -/
theorem NewStack.map_vaSub {vs : List ℕ} (hvs : ∀ q ∈ vs, q ∈ st.argv ++ st.env) :
    vs.map (vaSub · (vaSub (st.top + 8) newStackTop)) =
      vs.map fun q => newStackTop - 8 - st.size + (q - st.bottom) := by
  refine List.map_congr_left fun q hq => ?_
  obtain ⟨t, -, hlo, hhi⟩ := st.pointer_string (hvs q hq)
  obtain ⟨hvec, -, -⟩ := st.top_bounds
  exact h.vaSub_offset (by rw [InitialStack.bottom]; omega) (by omega)

/-- **The second half**: a call that returns has moved the stack. -/
theorem NewStack.relocate_spec (kernel : Kernel) {fuel : ℕ} (hfuel : st.size ≤ fuel) {l : Located}
    (htop : l.topOfStack = st.top) (henviron : l.environ = eid.ubpAv + 8 * (st.argv.length + 1)) :
    ∃ o, relocate kernel fuel m eid newStackTop l = some o ∧
      (kernel.allowPrctl = false → o ≠ .panicked) ∧
      ∀ newstack m' environ, o = .returned newstack m' environ →
        Relocated st (newStackTop - 8 - st.size) newstack m' environ := by
  obtain ⟨hsrc, hsize, hbase⟩ := h.addresses
  obtain ⟨hvec, hstrings, -⟩ := st.top_bounds
  have hbottom : st.bottom + 8 = eid.ubpAv := Nat.sub_add_cancel st.argc_below
  have hapart : Apart (newStackTop - 8 - st.size) st.size st.bottom st.size := by
    have hroom := h.room
    have happ := h.apart
    unfold Apart at *
    omega
  obtain ⟨m₁, hm₁, hargv, henv, hframe⟩ :=
    moveVectors_spec st (vaSub (st.top + 8) newStackTop) hfuel
  rw [h.map_vaSub fun q => List.mem_append_left _] at hargv
  rw [h.map_vaSub fun q => List.mem_append_right _] at henv
  have hcopy := read_write m₁ (newStackTop - 8 - st.size) (read m₁ st.bottom st.size)
  rw [read_length] at hcopy
  have henviron' : vaSub l.environ (vaSub (st.top + 8) newStackTop) =
      newStackTop - 8 - st.size + 8 * (st.argv.length + 2) := by
    rw [henviron, h.vaSub_offset (by omega) (by omega)]
    omega
  have hptr : vaSub eid.ubpAv (vaSub (st.top + 8) newStackTop) = newStackTop - 8 - st.size + 8 := by
    rw [h.vaSub_offset (by omega) (by omega)]
    omega
  have hdone := relocated_of_copy hargv henv hframe ((h.read_frame _ _).trans hcopy) henviron'
    ((h.frame_argv _ _).trans hptr)
  simp only [relocate, htop, hm₁, Option.bind_eq_bind, Option.bind_some, hsrc, hsize, hbase, memcpy,
    if_pos hapart]
  split
  next hp =>
    refine ⟨_, rfl, fun hno => ?_, fun _ _ _ hret => ?_⟩
    · rw [hno] at hp
      exact absurd hp (by simp)
    · cases hret
  next =>
    refine ⟨_, rfl, fun _ hret => ?_, fun _ _ _ hret => ?_⟩
    · cases hret
    · cases hret
      exact hdone

end Copy

/-- **The new stack is equivalent to the old one.**  On every well-formed stack the function comes
    to its end, panics at most on a refused `prctl`, and when it returns the copy below
    `new_stack_top` is the old stack at another place. -/
theorem ltckptSetupStack_relocates (st : InitialStack m eid) {newStackTop : ℕ}
    (h : NewStack st newStackTop) (kernel : Kernel) {fuel : ℕ} (hfuel : st.size ≤ fuel) :
    ∃ o, ltckptSetupStack kernel fuel m eid newStackTop = some o ∧
      (kernel.allowPrctl = false → o ≠ .panicked) ∧
      ∀ newstack m' environ, o = .returned newstack m' environ →
        Relocated st (newStackTop - 8 - st.size) newstack m' environ := by
  obtain ⟨l, hl, htop, henviron⟩ := locateTop_eq st hfuel
  have hmarker : ¬ readLE m l.topOfStack 8 ≠ 0 := by
    rw [htop]
    exact not_not_intro st.marker
  simp only [ltckptSetupStack, hl, Option.bind_eq_bind, Option.bind_some, if_neg hmarker]
  exact h.relocate_spec kernel hfuel htop henviron

/-- `argc`, one argument, one environment string, `AT_NULL`, and the strings `a`, `E=1` and `x`. -/
def smallStackBytes : List UInt8 :=
  wordLE 8 1 ++ wordLE 8 0x1038 ++ wordLE 8 0 ++ wordLE 8 0x103a ++ wordLE 8 0 ++ wordLE 8 0 ++
    wordLE 8 0 ++ [97, 0, 69, 61, 49, 0, 120, 0]

/-- A memory with these bytes at `0x1000` and zeros elsewhere. -/
def smallStackMem : Mem := fun x => if x < 0x1000 then 0 else smallStackBytes.getD (x - 0x1000) 0

/-- What the loader passes on for it. -/
def smallStackData : EarlyInitData := ⟨0x400000, 1, 0x1008, 0x400100, 0x400200, 0x400300, 0x1000⟩

/-- A small well-formed stack. -/
def smallStack : InitialStack smallStackMem smallStackData where
  argv := [0x1038]
  env := [0x103a]
  auxv := [0, 0]
  strings := 0x1038
  texts := [[97]]
  last := [69, 61, 49]
  extra := [120]
  argc_below := by decide
  words := by decide
  argv_ne := by decide
  env_ne := by decide
  auxv_below := by decide
  texts_at := by decide
  pointers := by decide
  last_used := by decide
  marker := by decide
  bounded := by decide

theorem ltckptSetupStack_relocates_smallStack : ∃ newstack m' environ,
    ltckptSetupStack ⟨false, fun _ _ => false⟩ 0x40 smallStackMem smallStackData 0x3000 =
        some (.returned newstack m' environ) ∧
      Relocated smallStack (0x3000 - 8 - smallStack.size) newstack m' environ := by
  have hnew : NewStack smallStack 0x3000 := ⟨by decide, by decide, by decide⟩
  obtain ⟨o, ho, hret, hdone⟩ := ltckptSetupStack_relocates smallStack hnew
    ⟨false, fun _ _ => false⟩ (show smallStack.size ≤ 0x40 by decide)
  cases o with
  | panicked => exact absurd rfl (hret rfl)
  | returned newstack m' environ => exact ⟨newstack, m', environ, ho, hdone _ _ _ rfl⟩

end Firestarter.Ltckpt.SetupStack
