import Mathlib.Data.List.Basic

namespace ByteCodec

/-!
# Numbers and strings in byte sequences

Numbers are written seven bits at a time, the lowest first, with the high bit set in all bytes but
the last; strings are closed by a zero byte.

* `writeVarint`, `readVarint`, `readVarint_write` — numbers;
* `readCString`, `readCString_append` — strings.
-/

/-- The bytes of a number. -/
def writeVarint (n : ℕ) : List UInt8 :=
  if n / 128 = 0 then [UInt8.ofNat n] else UInt8.ofNat (n % 128 + 128) :: writeVarint (n / 128)
termination_by n
decreasing_by omega

/-- Read a number; also returns what follows it. -/
def readVarint : List UInt8 → Option (ℕ × List UInt8)
  | [] => none
  | b :: bytes =>
    if b.toNat < 128 then some (b.toNat, bytes)
    else (readVarint bytes).map fun r => (b.toNat - 128 + 128 * r.1, r.2)

/-- **Round trip of a number**, whatever follows it. -/
theorem readVarint_write (n : ℕ) (rest : List UInt8) :
    readVarint (writeVarint n ++ rest) = some (n, rest) := by
  induction n using Nat.strongRecOn with
  | ind n ih =>
    rw [writeVarint]
    by_cases hlast : n / 128 = 0
    · rw [if_pos hlast, List.singleton_append, readVarint, UInt8.toNat_ofNat',
        Nat.mod_eq_of_lt (by omega), if_pos (by omega)]
    · rw [if_neg hlast, List.cons_append, readVarint, UInt8.toNat_ofNat',
        Nat.mod_eq_of_lt (by omega), if_neg (by omega), ih (n / 128) (by omega)]
      have hsum : n % 128 + 128 - 128 + 128 * (n / 128) = n := by omega
      rw [Option.map_some, hsum]

/-- Read up to a zero byte; also returns what follows it. -/
def readCString : List UInt8 → Option (List UInt8 × List UInt8)
  | [] => none
  | b :: bytes =>
    if b = 0 then some ([], bytes) else (readCString bytes).map fun r => (b :: r.1, r.2)

/-- **Round trip of a string** without a zero byte, whatever follows it. -/
theorem readCString_append {s : List UInt8} (h : 0 ∉ s) (rest : List UInt8) :
    readCString (s ++ 0 :: rest) = some (s, rest) := by
  induction s with
  | nil => rw [List.nil_append, readCString, if_pos rfl]
  | cons b s ih =>
    have hne : b ≠ 0 := fun hb => h (hb ▸ List.mem_cons_self)
    rw [List.cons_append, readCString, if_neg hne, ih fun hs => h (List.mem_cons_of_mem b hs),
      Option.map_some]

end ByteCodec
