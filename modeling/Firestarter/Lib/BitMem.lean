import Firestarter.Lib.FlatMem
import Mathlib.Data.Nat.Bitwise

namespace FlatMem

/-!
# Bits of a flat memory

* `bitAt` / `orBit` — a bit of a byte, and the memory with that bit set (`bitAt_orBit`);
* `testBit_readLE` — the bits of a little-endian word are those of its bytes;
* `writeLE_readLE` — storing a word that was just read changes nothing.
-/

/-- Bit `bit` of the byte at `p`. -/
def bitAt (m : Mem) (p bit : ℕ) : Bool := (m p).toNat.testBit bit

/-- The memory after setting bit `bit` of the byte at `p`. -/
def orBit (m : Mem) (p bit : ℕ) : Mem := write m p [UInt8.ofNat ((m p).toNat ||| 1 <<< bit)]

theorem orBit_of_ne (m : Mem) {p x : ℕ} (bit : ℕ) (hx : x ≠ p) : orBit m p bit x = m x :=
  write_of_outside _ _ _ (by rw [List.length_singleton]; omega)

theorem orBit_self (m : Mem) {p bit : ℕ} (hbit : bit < 8) :
    (orBit m p bit p).toNat = (m p).toNat ||| 1 <<< bit := by
  have hlt : (m p).toNat ||| 1 <<< bit < 2 ^ 8 := by
    refine Nat.or_lt_two_pow (m p).toNat_lt ?_
    rw [Nat.one_shiftLeft]
    exact Nat.pow_lt_pow_right (by decide) hbit
  rw [orBit, write_of_inside _ _ _ le_rfl (by simp), Nat.sub_self, List.getD_cons_zero,
    UInt8.toNat_ofNat_of_lt' hlt]

/-- Setting a bit sets that bit and no other. -/
theorem bitAt_orBit (m : Mem) {p bit q bit' : ℕ} (hbit : bit < 8) :
    bitAt (orBit m p bit) q bit' = (bitAt m q bit' || decide (p = q ∧ bit = bit')) := by
  by_cases hq : q = p
  · subst hq
    rw [bitAt, orBit_self m hbit, Nat.testBit_or, Nat.one_shiftLeft, Nat.testBit_two_pow, bitAt]
    simp
  · rw [bitAt, orBit_of_ne m bit hq, bitAt]
    simp [Ne.symm hq]

/-- `*p & (1 << bit)` tests the bit. -/
theorem and_ne_zero_iff_bitAt (m : Mem) (p bit : ℕ) :
    (m p).toNat &&& 1 <<< bit ≠ 0 ↔ bitAt m p bit = true := by
  rw [Nat.one_shiftLeft, Nat.and_two_pow, bitAt]
  cases (m p).toNat.testBit bit <;> simp

/-- Bytes with the same bits are equal. -/
theorem eq_of_bitAt {m m' : Mem} {p q : ℕ} (h : ∀ bit < 8, bitAt m p bit = bitAt m' q bit) :
    m p = m' q := by
  have hhigh : ∀ (b : UInt8) (i : ℕ), 8 ≤ i → b.toNat.testBit i = false := fun b i hi =>
    Nat.testBit_lt_two_pow (lt_of_lt_of_le b.toNat_lt (Nat.pow_le_pow_right (by decide) hi))
  apply UInt8.toNat_inj.mp
  refine Nat.eq_of_testBit_eq fun i => ?_
  by_cases hi : i < 8
  · exact h i hi
  · rw [hhigh _ i (by omega), hhigh _ i (by omega)]

/-- A byte without set bits is zero. -/
theorem eq_zero_of_bitAt {m : Mem} {p : ℕ} (h : ∀ bit < 8, bitAt m p bit = false) : m p = 0 := by
  have hzero : ∀ bit < 8, bitAt m p bit = bitAt (fun _ => 0) p bit :=
    fun bit hbit => (h bit hbit).trans (Nat.zero_testBit bit).symm
  exact eq_of_bitAt hzero

theorem ofWordLE_cons (b : UInt8) (bs : List UInt8) :
    ofWordLE (b :: bs) = 2 ^ 8 * ofWordLE bs + b.toNat := by
  simp only [ofWordLE, List.map_cons, Nat.ofDigits_cons]
  omega

/-- Encoding what was decoded yields the bytes again. -/
theorem wordLE_ofWordLE (bs : List UInt8) : wordLE bs.length (ofWordLE bs) = bs := by
  induction bs with
  | nil => rfl
  | cons b bs ih =>
    have hb := b.toNat_lt
    have hrest : ofWordLE (b :: bs) / 256 = ofWordLE bs := by
      rw [ofWordLE_cons]
      omega
    have hlow : UInt8.ofNat (ofWordLE (b :: bs)) = b := by
      apply UInt8.toNat_inj.mp
      rw [UInt8.toNat_ofNat', ofWordLE_cons]
      omega
    rw [List.length_cons, wordLE, hrest, hlow, ih]

/-- Storing the word that is there changes nothing. -/
theorem writeLE_readLE (m : Mem) (a k : ℕ) : writeLE m a k (readLE m a k) = m := by
  have hbytes : wordLE k (readLE m a k) = read m a k := by
    have h := wordLE_ofWordLE (read m a k)
    rwa [read_length] at h
  funext x
  rw [writeLE, hbytes]
  by_cases hx : a ≤ x ∧ x < a + k
  · rw [write_of_inside _ _ _ hx.1 (by rw [read_length]; exact hx.2), read_getD _ _ (by omega)]
    congr 1
    omega
  · exact write_of_outside _ _ _ (by rw [read_length]; omega)

/-- Storing zero clears the bytes of the word. -/
theorem writeLE_zero (m : Mem) (a k : ℕ) (x : ℕ) :
    writeLE m a k 0 x = if a ≤ x ∧ x < a + k then 0 else m x := by
  have hbytes : ∀ k, wordLE k 0 = List.replicate k 0 := by
    intro k
    induction k with
    | zero => rfl
    | succ k ih => rw [wordLE, Nat.zero_div, ih]; rfl
  rw [writeLE, write, hbytes, List.length_replicate]
  split_ifs with hx
  · rw [List.getD_eq_getElem?_getD, List.getElem?_replicate, if_pos (by omega)]
    rfl
  · rfl

theorem testBit_ofWordLE (bs : List UInt8) (j : ℕ) :
    (ofWordLE bs).testBit j = (bs.getD (j / 8) 0).toNat.testBit (j % 8) := by
  induction bs generalizing j with
  | nil => simp [ofWordLE]
  | cons b bs ih =>
    rw [ofWordLE_cons, Nat.testBit_two_pow_mul_add _ b.toNat_lt]
    split_ifs with hj
    · rw [Nat.div_eq_of_lt hj, Nat.mod_eq_of_lt hj, List.getD_cons_zero]
    · have hdiv : j / 8 = (j - 8) / 8 + 1 := by omega
      have hmod : (j - 8) % 8 = j % 8 := by omega
      rw [ih, hdiv, List.getD_cons_succ, hmod]

/-- The bits of a little-endian word are those of its bytes. -/
theorem testBit_readLE (m : Mem) (a : ℕ) {k j : ℕ} (hj : j < 8 * k) :
    (readLE m a k).testBit j = bitAt m (a + j / 8) (j % 8) := by
  rw [readLE, testBit_ofWordLE, read_getD _ _ (by omega), bitAt]

/-- The bits of a word that was stored. -/
theorem bitAt_writeLE (m : Mem) (a : ℕ) {k v i : ℕ} (hv : v < 256 ^ k) (hi : i < 8 * k) :
    bitAt (writeLE m a k v) (a + i / 8) (i % 8) = v.testBit i := by
  rw [← testBit_readLE _ a hi, readLE_writeLE m a hv]

/-- A word of zero bytes is zero. -/
theorem readLE_eq_zero {m : Mem} {a k : ℕ} (h : ∀ i < k, m (a + i) = 0) : readLE m a k = 0 := by
  refine Nat.eq_of_testBit_eq fun j => ?_
  rw [readLE, testBit_ofWordLE, Nat.zero_testBit]
  by_cases hj : j / 8 < k
  · rw [read_getD _ _ hj, h _ hj]
    exact Nat.zero_testBit _
  · rw [List.getD_eq_default _ _ (by rw [read_length]; omega)]
    exact Nat.zero_testBit _

end FlatMem
