import Mathlib.Algebra.Group.Nat.Defs
import Firestarter.Lib.FlatMem

namespace Firestarter.Minix.HypermemLog

open FlatMem

/-!
# The texts of the MINIX log (`ltckpt_recover.c`, `ltckpt_aop.c`)

`hypermem_cat` appends a string to a buffer that ends at `pend` and returns the new end of the text;
a line of the log is a chain of such calls.  `hypermem_cat_num` and `lt_n2d` write the digits of a
number backwards into a local buffer of 20 bytes.

* `hypermemCat`, `hypermemCats`: the append, and a chain of them;
* `hypermemCats_truncates`: a chain truncates the concatenation, and writes nothing outside the
  buffer;
* `hypermemCatNum`, `ltN2d`: the two formatters;
* `digitLoop_eq`, `n2dLoop_eq`: the digits they write;
* `formats_iff`: when they are exact and stay in their buffers.
-/

/-! ### Appending -/

/-- A C string, without the NUL behind it. -/
structure CString where
  chars : List UInt8
  noNul : 0 ∉ chars

/-- `hypermem_cat`: memory after the call, and the pointer it returns. -/
def hypermemCat (m : Mem) (p pend : ℕ) (s : List UInt8) : Mem × ℕ :=
  if pend ≤ p then (m, p)
  else
    let avail := pend - p
    let len := if avail ≤ s.length then avail - 1 else s.length
    let m := write m p (s.take len)
    (write m (p + len) [0], p + len)

/-- A chain of calls, each with the pointer that the one before it returned. -/
def hypermemCats (pend : ℕ) : Mem × ℕ → List CString → Mem × ℕ
  | r, [] => r
  | r, s :: ss => hypermemCats pend (hypermemCat r.1 r.2 pend s.chars) ss

section Append

variable {buf n : ℕ}

/-- **A buffer in use.** `text` was appended so far: as much of it as fits stands at the start of
    the buffer, and `p` behind it. -/
structure Holds (buf n : ℕ) (text : List UInt8) (m : Mem) (p : ℕ) : Prop where
  pos : p = buf + min text.length (n - 1)
  chars : read m buf (min text.length (n - 1)) = text.take (n - 1)

/-- A call in terms of the text: what still fits of the string is appended and terminated. -/
theorem hypermemCat_eq (m : Mem) {p pend : ℕ} (hp : p < pend) (s : List UInt8) :
    hypermemCat m p pend s =
      (write (write m p (s.take (pend - 1 - p))) (p + min s.length (pend - 1 - p)) [0],
        p + min s.length (pend - 1 - p)) := by
  have hlen : (if pend - p ≤ s.length then pend - p - 1 else s.length) =
      min s.length (pend - 1 - p) := by
    split <;> omega
  have htake : s.take (min s.length (pend - 1 - p)) = s.take (pend - 1 - p) := by
    rw [← List.take_take]
    exact List.take_of_length_le (by rw [List.length_take]; exact Nat.min_le_right _ _)
  unfold hypermemCat
  rw [if_neg (by omega)]
  simp only [hlen, htake]

/-- **One call** appends the string to the text, terminates it and writes nothing outside the
    buffer. -/
theorem Holds.cat (hn : 0 < n) {text : List UInt8} {m : Mem} {p : ℕ} (h : Holds buf n text m p)
    (s : List UInt8) :
    Holds buf n (text ++ s) (hypermemCat m p (buf + n) s).1 (hypermemCat m p (buf + n) s).2 ∧
      (hypermemCat m p (buf + n) s).1 (hypermemCat m p (buf + n) s).2 = 0 ∧
      ∀ x, x < buf ∨ buf + n ≤ x → (hypermemCat m p (buf + n) s).1 x = m x := by
  obtain ⟨hp, hchars⟩ := h
  generalize hk : min text.length (n - 1) = k at hp hchars
  rw [hypermemCat_eq m (by omega) s]
  have hroom : buf + n - 1 - p = n - 1 - k := by omega
  have hlen : (s.take (n - 1 - k)).length = min s.length (n - 1 - k) := by
    rw [List.length_take, Nat.min_comm]
  rw [hroom]
  generalize hj : min s.length (n - 1 - k) = j at hlen
  have hnew : min (text ++ s).length (n - 1) = k + j := by
    rw [List.length_append]
    omega
  have htake : (text ++ s).take (n - 1) = text.take (n - 1) ++ s.take (n - 1 - k) := by
    rw [List.take_append]
    congr 2
    omega
  refine ⟨⟨by rw [hnew, hp, Nat.add_assoc], ?_⟩, ?_, ?_⟩
  · -- the NUL is behind the text, and the string behind the text before it
    rw [hnew, htake, read_write_of_apart _ (.inr (by omega)), read_add,
      read_write_of_apart _ (.inr (by omega)), hchars, ← hp, ← hlen, read_write]
  · show write _ (p + j) [0] (p + j) = 0
    rw [write_of_inside _ _ _ (Nat.le_refl _) (Nat.lt_succ_self _), Nat.sub_self]
    rfl
  · intro x hx
    show write _ (p + j) [0] x = m x
    rw [write_of_outside _ _ _ (by rw [List.length_singleton]; omega),
      write_of_outside _ _ _ (by omega)]

/-- **A chain of calls** on a buffer in use. -/
theorem Holds.cats (hn : 0 < n) (ss : List CString) {text : List UInt8} {r : Mem × ℕ}
    (h : Holds buf n text r.1 r.2) (hnul : ss ≠ [] ∨ r.1 r.2 = 0) :
    Holds buf n (text ++ (ss.map CString.chars).flatten) (hypermemCats (buf + n) r ss).1
        (hypermemCats (buf + n) r ss).2 ∧
      (hypermemCats (buf + n) r ss).1 (hypermemCats (buf + n) r ss).2 = 0 ∧
      ∀ x, x < buf ∨ buf + n ≤ x → (hypermemCats (buf + n) r ss).1 x = r.1 x := by
  induction ss generalizing text r with
  | nil =>
    rw [List.map_nil, List.flatten_nil, List.append_nil]
    exact ⟨h, hnul.resolve_left (fun hne => hne rfl), fun x _ => rfl⟩
  | cons s ss ih =>
    obtain ⟨hcat, hterm, hframe⟩ := h.cat hn s.chars
    obtain ⟨hrest, hterm', hframe'⟩ := ih hcat (.inr hterm)
    rw [List.map_cons, List.flatten_cons, ← List.append_assoc]
    exact ⟨hrest, hterm', fun x hx => (hframe' x hx).trans (hframe x hx)⟩

/-- **Safe truncation.** After any chain of calls from the start of a buffer of `n` bytes the buffer
    holds the first `n - 1` characters of the concatenation and a NUL, and no byte outside it was
    written.  Without a call the buffer is as it was, so it has to be empty before. -/
theorem hypermemCats_truncates (m : Mem) (buf n : ℕ) (hn : 1 ≤ n) (ss : List CString)
    (hcalls : ss ≠ [] ∨ m buf = 0) :
    read (hypermemCats (buf + n) (m, buf) ss).1 buf
        (((ss.map CString.chars).flatten.take (n - 1)).length + 1) =
        (ss.map CString.chars).flatten.take (n - 1) ++ [0] ∧
      ∀ x, x < buf ∨ buf + n ≤ x → (hypermemCats (buf + n) (m, buf) ss).1 x = m x := by
  have hstart : Holds buf n [] m buf := by
    constructor
    · rw [List.length_nil, Nat.zero_min, Nat.add_zero]
    · rw [List.length_nil, Nat.zero_min, List.take_nil]
      rfl
  obtain ⟨⟨hp, hchars⟩, hterm, hframe⟩ := Holds.cats (r := (m, buf)) hn ss hstart hcalls
  rw [List.nil_append] at hp hchars
  refine ⟨?_, hframe⟩
  rw [List.length_take, Nat.min_comm, read_add, hchars, ← hp]
  exact congrArg (fun b => (ss.map CString.chars).flatten.take (n - 1) ++ [b]) hterm

/-- Two strings in a buffer of six bytes: five characters and a NUL. -/
theorem hypermemCats_truncates_six :
    read (hypermemCats 106 (fun _ => 7, 100) [⟨[1, 2, 3], by decide⟩, ⟨[4, 5, 6], by decide⟩]).1
      100 6 = [1, 2, 3, 4, 5, 0] :=
  (hypermemCats_truncates (fun _ => 7) 100 6 (by decide)
    [⟨[1, 2, 3], by decide⟩, ⟨[4, 5, 6], by decide⟩] (.inl (List.cons_ne_nil _ _))).1

end Append

/-! ### Digits -/

/-- The digits of a number as C characters. -/
def digits (n : ℕ) : List UInt8 := (Nat.toDigits 10 n).map fun c => c.toNat.toUInt8

/-- **The decimal representation** of a signed number. -/
def decimal (z : ℤ) : List UInt8 := if z < 0 then 45 :: digits z.natAbs else digits z.natAbs

/-- The last digit, and the number before it. -/
theorem digits_eq (n : ℕ) :
    digits n = (if 0 < n / 10 then digits (n / 10) else []) ++ [(48 + n % 10).toUInt8] := by
  have hlast : n % 10 < 10 := Nat.mod_lt _ (by decide)
  unfold digits
  by_cases hn : 10 ≤ n
  · rw [Nat.toDigits_of_base_le (by decide) hn, if_pos (Nat.div_pos hn (by decide)),
      List.map_append, List.map_singleton, Nat.toNat_digitChar_of_lt_ten hlast]
  · rw [Nat.toDigits_of_lt_base (by omega), if_neg (by omega), List.map_singleton,
      List.nil_append, Nat.toNat_digitChar_of_lt_ten (by omega), Nat.mod_eq_of_lt (by omega)]

theorem length_digits_le_iff {n k : ℕ} (hk : 0 < k) : (digits n).length ≤ k ↔ n < 10 ^ k := by
  rw [digits, List.length_map, Nat.length_toDigits_le_iff (by decide) hk]

@[simp] theorem decimal_natCast (n : ℕ) : decimal n = digits n := by
  rw [decimal, if_neg (by omega), Int.natAbs_natCast]

/-- The numbers whose representation has at most 19 characters. -/
theorem length_decimal_le_iff (z : ℤ) : (decimal z).length ≤ 19 ↔ -10 ^ 18 < z ∧ z < 10 ^ 19 := by
  unfold decimal
  split
  · rw [List.length_cons, Nat.add_one_le_iff, Nat.lt_succ_iff, length_digits_le_iff (by decide)]
    omega
  · rw [length_digits_le_iff (by decide)]
    omega

/-! ### Filling a local buffer from its end -/

/-- **A local buffer that is filled from its end.** `s` is the cursor, as an offset into the buffer;
    `text` is the string from there on, and `writes` the offsets stored to. -/
structure Backfill where
  s : ℤ
  text : List UInt8
  writes : List ℤ

namespace Backfill

/-- `char buf[20], *s = buf + sizeof(buf)` after the `*--s = 0`. -/
def start : Backfill := ⟨19, [], [19]⟩

/-- `*--s = c` -/
def push (b : Backfill) (c : UInt8) : Backfill := ⟨b.s - 1, c :: b.text, (b.s - 1) :: b.writes⟩

/-- A text in front, its last character first. -/
def pushText (b : Backfill) (cs : List UInt8) : Backfill := cs.foldr (fun c b => b.push c) b

/-- No store went outside the 20 bytes of the buffer. -/
def InBounds (b : Backfill) : Prop := ∀ w ∈ b.writes, 0 ≤ w ∧ w < 20

variable (b : Backfill) (cs : List UInt8)

theorem pushText_append (ds : List UInt8) : b.pushText (cs ++ ds) = (b.pushText ds).pushText cs :=
  List.foldr_append

@[simp] theorem pushText_singleton (c : UInt8) : b.pushText [c] = b.push c := rfl

theorem pushText_s : (b.pushText cs).s = b.s - cs.length := by
  induction cs with
  | nil => simp [pushText]
  | cons c cs ih =>
    show (b.pushText cs).s - 1 = _
    rw [ih, List.length_cons]
    omega

theorem pushText_text : (b.pushText cs).text = cs ++ b.text := by
  induction cs with
  | nil => rfl
  | cons c cs ih => exact congrArg (c :: ·) ih

/-- The offsets stored to are those the cursor went over. -/
theorem mem_pushText_writes (w : ℤ) :
    w ∈ (b.pushText cs).writes ↔ w ∈ b.writes ∨ (b.s - cs.length ≤ w ∧ w < b.s) := by
  induction cs with
  | nil =>
    simp only [List.length_nil]
    exact ⟨.inl, fun h => h.resolve_right (by omega)⟩
  | cons c cs ih =>
    show w ∈ ((b.pushText cs).s - 1) :: (b.pushText cs).writes ↔ _
    rw [List.mem_cons, ih, pushText_s, List.length_cons]
    constructor
    · rintro (rfl | hw | hw)
      · exact .inr (by omega)
      · exact .inl hw
      · exact .inr (by omega)
    · rintro (hw | hw)
      · exact .inr (.inl hw)
      · by_cases heq : w = b.s - cs.length - 1
        · exact .inl heq
        · exact .inr (.inr (by omega))

/-- A text fits into the local buffer when it has at most 19 characters. -/
theorem start_pushText_inBounds : (start.pushText cs).InBounds ↔ cs.length ≤ 19 := by
  constructor
  · intro h
    by_contra hlong
    have hw : (-1 : ℤ) ∈ (start.pushText cs).writes := by
      rw [mem_pushText_writes]
      exact .inr (by simp only [start]; omega)
    exact absurd (h _ hw).1 (by decide)
  · intro hlen w hw
    rw [mem_pushText_writes] at hw
    rcases hw with hw | hw
    · rw [List.mem_singleton.mp hw]
      decide
    · simp only [start] at hw
      omega

end Backfill

/-! ### `hypermem_cat_num` -/

/-- `do { *--s = (n % 10) + '0'; n /= 10; } while (n > 0)` -/
def digitLoop : ℕ → ℤ → Backfill → Backfill
  | 0, _, b => b
  | fuel + 1, n, b =>
    let b := b.push (UInt8.ofInt (n.tmod 10 + 48))
    let n := n.tdiv 10
    if 0 < n then digitLoop fuel n b else b

/-- The local buffer of `hypermem_cat_num` at its call of `hypermem_cat`. -/
def numBuffer (n : Int64) : Backfill :=
  let neg := n < 0
  let n := if neg then -n else n
  let b := digitLoop 20 n.toInt Backfill.start
  if neg then b.push 45 else b

/-- `hypermem_cat_num`: the local buffer, and what the call of `hypermem_cat` returns. -/
def hypermemCatNum (m : Mem) (p pend : ℕ) (n : Int64) : Backfill × Mem × ℕ :=
  (numBuffer n, hypermemCat m p pend (numBuffer n).text)

/-- One round, for a number that is not negative. -/
theorem digitLoop_succ (fuel n : ℕ) (b : Backfill) :
    digitLoop (fuel + 1) n b =
      if 0 < n / 10 then digitLoop fuel (n / 10 : ℕ) (b.push (48 + n % 10).toUInt8)
      else b.push (48 + n % 10).toUInt8 := by
  have hbyte : UInt8.ofInt ((n : ℤ).tmod 10 + 48) = (48 + n % 10).toUInt8 := by
    have hmod : (n : ℤ).tmod 10 = ((n % 10 : ℕ) : ℤ) := rfl
    rw [hmod, Nat.add_comm]
    show UInt8.ofNat ((n % 10 + 48) % 2 ^ 8) = UInt8.ofNat (n % 10 + 48)
    rw [Nat.mod_eq_of_lt (by omega)]
  have hdiv : (n : ℤ).tdiv 10 = ((n / 10 : ℕ) : ℤ) := rfl
  simp only [digitLoop, hbyte, hdiv, Int.natCast_pos]

/-- **The loop** writes the digits of a number that is not negative. -/
theorem digitLoop_eq (fuel n : ℕ) (b : Backfill) (hfuel : n < 10 ^ (fuel + 1)) :
    digitLoop (fuel + 1) n b = b.pushText (digits n) := by
  rw [digitLoop_succ, digits_eq, Backfill.pushText_append, Backfill.pushText_singleton]
  induction fuel generalizing n b with
  | zero =>
    have hlast : ¬ 0 < n / 10 := by omega
    rw [if_neg hlast, if_neg hlast]
    rfl
  | succ fuel ih =>
    by_cases hmore : 0 < n / 10
    · have hrest : n / 10 < 10 ^ (fuel + 1) :=
        Nat.div_lt_of_lt_mul (by rwa [Nat.pow_succ'] at hfuel)
      rw [if_pos hmore, if_pos hmore, digitLoop_succ, ih _ _ hrest]
      rw [digits_eq (n / 10), Backfill.pushText_append, Backfill.pushText_singleton]
    · rw [if_neg hmore, if_neg hmore]
      rfl

/-- **The local buffer** holds the representation of every number but the least one. -/
theorem numBuffer_eq {n : Int64} (hn : -2 ^ 63 < n.toInt) :
    numBuffer n = Backfill.start.pushText (decimal n.toInt) := by
  have hlt : n.toInt < 2 ^ 63 := Int64.toInt_lt n
  unfold numBuffer
  by_cases hneg : n < 0
  · have hz : n.toInt < 0 := Int64.lt_iff_toInt_lt.mp hneg
    have habs : (-n).toInt = (n.toInt.natAbs : ℤ) := by
      rw [Int64.toInt_neg, Int.bmod_eq_of_le (by omega) (by omega)]
      omega
    simp only [hneg, if_true, habs]
    rw [digitLoop_eq 19 _ _ (by omega), decimal, if_pos hz]
    rfl
  · have hz : ¬ n.toInt < 0 := fun h => hneg (Int64.lt_iff_toInt_lt.mpr h)
    have habs : n.toInt = (n.toInt.natAbs : ℤ) := by omega
    simp only [hneg, if_false]
    rw [habs, digitLoop_eq 19 _ _ (by omega), decimal_natCast]

/-! ### `lt_n2d` -/

/-- `do { r = n % 10; p[0] = '0' + r; n -= r; n /= 10; p--; } while (n > 0 && p >= s)`; the cursor
    stands behind `p`. -/
def n2dLoop : ℕ → ℕ → Backfill → Backfill
  | 0, _, b => b
  | fuel + 1, n, b =>
    let r := n % 10
    let b := b.push (48 + r).toUInt8
    let n := (n - r) / 10
    if 0 < n ∧ 0 ≤ b.s - 1 then n2dLoop fuel n b else b

/-- `lt_n2d`: the buffer, whose text is what the returned pointer points to. -/
def ltN2d (n : UInt64) : Backfill := n2dLoop 20 n.toNat Backfill.start

/-- **The loop** writes as many of the last digits as there is room for. -/
theorem n2dLoop_eq (fuel n k : ℕ) (b : Backfill) (hfuel : n < 10 ^ (fuel + 1)) (hk : b.s = k + 1) :
    n2dLoop (fuel + 1) n b = b.pushText ((digits n).drop ((digits n).length - (k + 1))) := by
  have hdiv (n : ℕ) : (n - n % 10) / 10 = n / 10 := by omega
  induction fuel generalizing n k b with
  | zero =>
    have hlast : ¬ 0 < n / 10 := by omega
    simp only [n2dLoop, hdiv, hlast, false_and, if_false]
    rw [digits_eq, if_neg hlast]
    simp
  | succ fuel ih =>
    rw [n2dLoop]
    simp only [hdiv]
    -- the digit in front of the last one is written when there is one and the buffer is not full
    by_cases hmore : 0 < n / 10
    · have hrest : n / 10 < 10 ^ (fuel + 1) :=
        Nat.div_lt_of_lt_mul (by rwa [Nat.pow_succ'] at hfuel)
      have hdrop : (digits n).drop ((digits n).length - (k + 1)) =
          (digits (n / 10)).drop ((digits (n / 10)).length - k) ++ [(48 + n % 10).toUInt8] := by
        rw [digits_eq n, if_pos hmore, List.length_append, List.length_singleton,
          Nat.add_sub_add_right, List.drop_append_of_le_length (Nat.sub_le _ _)]
      rw [hdrop, Backfill.pushText_append, Backfill.pushText_singleton]
      cases k with
      | zero =>
        rw [if_neg (by simp [Backfill.push, hk]), Nat.sub_zero, List.drop_length]
        rfl
      | succ k =>
        have hroom : (b.push (48 + n % 10).toUInt8).s = k + 1 := by
          simp only [Backfill.push, hk]
          omega
        rw [if_pos ⟨hmore, by omega⟩, ih _ _ _ hrest hroom]
    · rw [if_neg (fun h => hmore h.1), digits_eq, if_neg hmore]
      simp

/-! ### When the representations are exact -/

/-- **A number is formatted** in a local buffer: the string there is its representation, and no
    store went outside the buffer. -/
def Backfill.Formats (b : Backfill) (z : ℤ) : Prop := b.text = decimal z ∧ b.InBounds

theorem start_pushText_formats {cs : List UInt8} {z : ℤ} :
    (Backfill.start.pushText cs).Formats z ↔ cs = decimal z ∧ cs.length ≤ 19 := by
  rw [Backfill.Formats, Backfill.pushText_text, Backfill.start_pushText_inBounds]
  exact Iff.of_eq (congrArg (fun t => t = decimal z ∧ _) (List.append_nil cs))

/-- The least number is written as `-(`. -/
theorem numBuffer_minValue : (numBuffer Int64.minValue).text = [45, 40] := by decide

theorem numBuffer_formats_iff (n : Int64) : (numBuffer n).Formats n.toInt ↔ -10 ^ 18 < n.toInt := by
  have hlt : n.toInt < 2 ^ 63 := Int64.toInt_lt n
  have hle : -2 ^ 63 ≤ n.toInt := Int64.le_toInt n
  rcases Int.lt_or_eq_of_le hle with hn | hn
  · rw [numBuffer_eq hn, start_pushText_formats, length_decimal_le_iff]
    exact ⟨fun h => h.2.1, fun h => ⟨rfl, h, by omega⟩⟩
  · have hmin : n = Int64.minValue := Int64.toInt_inj.mp (hn.symm.trans (by decide))
    subst hmin
    constructor
    · intro h
      rw [Backfill.Formats, numBuffer_minValue] at h
      exact absurd h.1 (by decide)
    · intro h
      exact absurd h (by decide)

theorem ltN2d_formats_iff (n : UInt64) : (ltN2d n).Formats n.toNat ↔ n.toNat < 10 ^ 19 := by
  have hlt : n.toNat < 2 ^ 64 := UInt64.toNat_lt n
  rw [ltN2d, n2dLoop_eq 19 _ 18 _ (by omega) rfl, start_pushText_formats, decimal_natCast]
  rw [← length_digits_le_iff (by decide)]
  constructor
  · rintro ⟨heq, hlen⟩
    rwa [heq] at hlen
  · intro hlen
    rw [Nat.sub_eq_zero_of_le hlen]
    exact ⟨rfl, hlen⟩

/-- **The two formatters** are exact and stay in their buffers up to 19 characters, which excludes
    the signed numbers down from `-10 ^ 18` and the unsigned ones up from `10 ^ 19`.  What is exact
    is what is appended to the log. -/
theorem formats_iff (m : Mem) (p pend : ℕ) (n : Int64) (u : UInt64) :
    ((hypermemCatNum m p pend n).1.Formats n.toInt ↔ -10 ^ 18 < n.toInt) ∧
      (-10 ^ 18 < n.toInt →
        (hypermemCatNum m p pend n).2 = hypermemCat m p pend (decimal n.toInt)) ∧
      ((ltN2d u).Formats u.toNat ↔ u.toNat < 10 ^ 19) := by
  refine ⟨numBuffer_formats_iff n, fun hn => ?_, ltN2d_formats_iff u⟩
  rw [hypermemCatNum, ((numBuffer_formats_iff n).mpr hn).1]

/-- The least signed number is written as `-(`, the one after it starts one byte before the buffer,
    and the greatest unsigned number loses its first digit. -/
theorem formats_fails_at_extremes :
    (hypermemCatNum (fun _ => 0) 0 64 Int64.minValue).1.text = [45, 40] ∧
      -1 ∈ (hypermemCatNum (fun _ => 0) 0 64 (Int64.minValue + 1)).1.writes ∧
      (ltN2d 18446744073709551615).text = decimal 8446744073709551615 ∧
      ¬ (hypermemCatNum (fun _ => 0) 0 64 Int64.minValue).1.Formats (-9223372036854775808) ∧
      ¬ (ltN2d 18446744073709551615).Formats 18446744073709551615 := by
  have hsigned := numBuffer_formats_iff Int64.minValue
  have hunsigned := ltN2d_formats_iff 18446744073709551615
  refine ⟨numBuffer_minValue, by decide, by decide, ?_, ?_⟩
  · exact fun h => absurd (hsigned.mp h) (by decide)
  · exact fun h => absurd (hunsigned.mp h) (by decide)

end Firestarter.Minix.HypermemLog
