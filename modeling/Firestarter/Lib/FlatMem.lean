import Mathlib.Data.Nat.Digits.Defs

namespace FlatMem

/-!
# Flat byte memory

A memory is a total map from addresses to bytes.  Addresses are natural numbers, so that
interval arithmetic is plain arithmetic; a client that needs a bounded address space says
where it wraps.

* `read` / `write` — a run of bytes, with one frame lemma (`write_of_outside`) and one
  read-back lemma (`read_write`);
* `wordLE` / `ofWordLE` — little-endian words of any width, inverse to each other below
  `256 ^ k` (`ofWordLE_wordLE`);
* `Apart` — disjointness of two address ranges, the side condition every frame lemma takes.
-/

/-- A flat byte memory. -/
abbrev Mem := ℕ → UInt8

/-! ### Ranges -/

/-- The ranges `[a, a + m)` and `[b, b + n)` share no address. -/
def Apart (a m b n : ℕ) : Prop := a + m ≤ b ∨ b + n ≤ a

instance (a m b n : ℕ) : Decidable (Apart a m b n) :=
  inferInstanceAs (Decidable (_ ∨ _))

variable {a b n x k : ℕ} {m m' : Mem} {bs : List UInt8}

theorem Apart.symm {m : ℕ} (h : Apart a m b n) : Apart b n a m := Or.symm h

/-- Subranges of two ranges that are apart are apart. -/
theorem Apart.mono {m a' m' b' n' : ℕ} (h : Apart a m b n) (ha : a ≤ a') (ham : a' + m' ≤ a + m)
    (hb : b ≤ b') (hbn : b' + n' ≤ b + n) : Apart a' m' b' n' := by
  unfold Apart at *
  omega

/-! ### Reading and writing runs of bytes -/

/-- The `n` bytes from address `a` on. -/
def read (m : Mem) (a n : ℕ) : List UInt8 := (List.range n).map fun i => m (a + i)

/-- The memory after storing the bytes `bs` from address `a` on. -/
def write (m : Mem) (a : ℕ) (bs : List UInt8) : Mem := fun x =>
  if a ≤ x ∧ x < a + bs.length then bs.getD (x - a) 0 else m x

@[simp] theorem read_length (m : Mem) (a n : ℕ) : (read m a n).length = n := by
  simp [read]

/-- Byte `i` of a run that was read is the byte at offset `i`. -/
theorem read_getD (m : Mem) (a : ℕ) {i : ℕ} (hi : i < n) : (read m a n).getD i 0 = m (a + i) := by
  simp [read, List.getD_eq_getElem?_getD, hi]

/-- **Frame.** A write changes nothing outside the bytes it stores. -/
theorem write_of_outside (m : Mem) (a : ℕ) (bs : List UInt8) (hx : x < a ∨ a + bs.length ≤ x) :
    write m a bs x = m x := by
  rw [write, if_neg (by omega)]

/-- Inside the stored range a write yields the stored byte. -/
theorem write_of_inside (m : Mem) (a : ℕ) (bs : List UInt8) (hlo : a ≤ x)
    (hhi : x < a + bs.length) : write m a bs x = bs.getD (x - a) 0 := by
  rw [write, if_pos ⟨hlo, hhi⟩]

/-- Two memories that agree on a range read alike there. -/
theorem read_congr (h : ∀ i < n, m (a + i) = m' (a + i)) : read m a n = read m' a n :=
  List.map_congr_left fun i hi => h i (List.mem_range.mp hi)

/-- A write leaves every range it is apart from as it was. -/
theorem read_write_of_apart (m : Mem) (h : Apart a bs.length b n) :
    read (write m a bs) b n = read m b n :=
  read_congr fun i hi => write_of_outside m a bs (by unfold Apart at h; omega)

/-- **Read-back.** A run that was just stored reads back as stored. -/
theorem read_write (m : Mem) (a : ℕ) (bs : List UInt8) : read (write m a bs) a bs.length = bs := by
  apply List.ext_getElem (by simp)
  intro i hi hi'
  simp only [read, List.getElem_map, List.getElem_range]
  rw [write_of_inside m a bs (by omega) (by omega), Nat.add_sub_cancel_left,
    List.getD_eq_getElem?_getD, List.getElem?_eq_getElem hi']
  rfl

/-- A range is read as two parts. -/
theorem read_add (m : Mem) (a n k : ℕ) : read m a (n + k) = read m a n ++ read m (a + n) k := by
  simp only [read, List.range_add, List.map_append, List.map_map, Function.comp_def, Nat.add_assoc]

/-- The first bytes of a range. -/
theorem take_read (m : Mem) (a : ℕ) {j : ℕ} (hj : j ≤ n) : (read m a n).take j = read m a j := by
  rw [read, read, ← List.map_take, List.take_range, Nat.min_eq_left hj]

/-- The memory after a list of stores, in order. -/
def writeAll (m : Mem) (ws : List (ℕ × List UInt8)) : Mem :=
  ws.foldl (fun m w => write m w.1 w.2) m

/-- A list of stores changes nothing outside the bytes it stores. -/
theorem writeAll_of_outside (m : Mem) {ws : List (ℕ × List UInt8)}
    (h : ∀ w ∈ ws, x < w.1 ∨ w.1 + w.2.length ≤ x) : writeAll m ws x = m x := by
  induction ws generalizing m with
  | nil => rfl
  | cons w ws ih =>
    have htail := ih (write m w.1 w.2) fun w' hw' => h w' (List.mem_cons_of_mem w hw')
    exact htail.trans (write_of_outside m w.1 w.2 (h w (List.mem_cons_self ..)))

/-- Stores that are all apart from a range leave it as it was. -/
theorem read_writeAll_of_apart (m : Mem) {ws : List (ℕ × List UInt8)}
    (h : ∀ w ∈ ws, Apart w.1 w.2.length b n) : read (writeAll m ws) b n = read m b n :=
  read_congr fun i hi => writeAll_of_outside m fun w hw => by
    have hapart := h w hw
    unfold Apart at hapart
    omega

/-! ### Little-endian words -/

/-- The low `k` bytes of `n`, least significant first. -/
def wordLE : ℕ → ℕ → List UInt8
  | 0, _ => []
  | k + 1, n => UInt8.ofNat n :: wordLE k (n / 256)

/-- The number a little-endian run of bytes stands for. -/
def ofWordLE (bs : List UInt8) : ℕ := Nat.ofDigits 256 (bs.map UInt8.toNat)

@[simp] theorem wordLE_length (k n : ℕ) : (wordLE k n).length = k := by
  induction k generalizing n with
  | zero => rfl
  | succ k ih => simp [wordLE, ih]

/-- Decoding keeps exactly the low `k` bytes. -/
theorem ofWordLE_wordLE (k n : ℕ) : ofWordLE (wordLE k n) = n % 256 ^ k := by
  induction k generalizing n with
  | zero => simp [wordLE, ofWordLE, Nat.mod_one]
  | succ k ih =>
    have hstep : ofWordLE (wordLE (k + 1) n) = n % 256 + 256 * ofWordLE (wordLE k (n / 256)) := by
      simp [wordLE, ofWordLE, Nat.ofDigits_cons]
    rw [hstep, ih, pow_succ, mul_comm (256 ^ k), Nat.mod_mul]

/-- The `k`-byte word at address `a`. -/
def readLE (m : Mem) (a k : ℕ) : ℕ := ofWordLE (read m a k)

theorem readLE_congr (h : ∀ i < n, m (a + i) = m' (a + i)) : readLE m a n = readLE m' a n := by
  rw [readLE, readLE, read_congr h]

theorem readLE_lt (m : Mem) (a k : ℕ) : readLE m a k < 256 ^ k := by
  have h := Nat.ofDigits_lt_base_pow_length (b := 256) (l := (read m a k).map UInt8.toNat)
    (by decide) fun x hx => by
      obtain ⟨b, -, rfl⟩ := List.mem_map.mp hx
      exact b.toNat_lt
  rwa [List.length_map, read_length] at h

/-- The memory after storing the low `k` bytes of `n` at address `a`. -/
def writeLE (m : Mem) (a k n : ℕ) : Mem := write m a (wordLE k n)

/-- A word that fits its width reads back as stored. -/
theorem readLE_writeLE (m : Mem) (a : ℕ) (hn : n < 256 ^ k) : readLE (writeLE m a k n) a k = n := by
  have h := read_write m a (wordLE k n)
  rw [wordLE_length] at h
  rw [readLE, writeLE, h, ofWordLE_wordLE, Nat.mod_eq_of_lt hn]

/-- Storing a word leaves the words apart from it alone. -/
theorem readLE_write_of_apart (m : Mem) (h : Apart a bs.length b k) :
    readLE (write m a bs) b k = readLE m b k := by
  rw [readLE, read_write_of_apart m h, readLE]

theorem writeLE_of_outside (m : Mem) (a k n : ℕ) (hx : x < a ∨ a + k ≤ x) :
    writeLE m a k n x = m x :=
  write_of_outside m a _ (by rwa [wordLE_length])

/-- Writing the same word again changes nothing. -/
theorem writeLE_writeLE_self (m : Mem) (a k n : ℕ) :
    writeLE (writeLE m a k n) a k n = writeLE m a k n := by
  funext x
  unfold writeLE
  by_cases hx : a ≤ x ∧ x < a + (wordLE k n).length
  · rw [write_of_inside _ _ _ hx.1 hx.2, write_of_inside _ _ _ hx.1 hx.2]
  · exact write_of_outside _ _ _ (by omega)

/-- Writes to ranges that are apart commute. -/
theorem write_comm_of_apart (m : Mem) {cs : List UInt8} (h : Apart a bs.length b cs.length) :
    write (write m a bs) b cs = write (write m b cs) a bs := by
  funext x
  unfold Apart at h
  by_cases ha : a ≤ x ∧ x < a + bs.length
  · rw [write_of_inside _ a bs ha.1 ha.2, write_of_outside _ b cs (by omega),
      write_of_inside _ a bs ha.1 ha.2]
  · rw [write_of_outside _ a bs (by omega)]
    by_cases hb : b ≤ x ∧ x < b + cs.length
    · rw [write_of_inside _ b cs hb.1 hb.2, write_of_inside _ b cs hb.1 hb.2]
    · rw [write_of_outside _ b cs (by omega), write_of_outside _ b cs (by omega),
        write_of_outside _ a bs (by omega)]

/-- A second write to a range replaces the first. -/
theorem write_write_same (m : Mem) (a : ℕ) {cs : List UInt8} (h : bs.length = cs.length) :
    write (write m a bs) a cs = write m a cs := by
  funext x
  by_cases hx : a ≤ x ∧ x < a + cs.length
  · rw [write_of_inside _ a cs hx.1 hx.2, write_of_inside _ a cs hx.1 hx.2]
  · rw [write_of_outside _ a cs (by omega), write_of_outside _ a cs (by omega),
      write_of_outside _ a bs (by omega)]

theorem readLE_writeLE_of_apart (m : Mem) {l : ℕ} (h : Apart a k b l) :
    readLE (writeLE m a k n) b l = readLE m b l :=
  readLE_write_of_apart m (by rwa [wordLE_length])

theorem read_writeLE_of_apart (m : Mem) {l : ℕ} (h : Apart a k b l) :
    read (writeLE m a k n) b l = read m b l :=
  read_write_of_apart m (by rwa [wordLE_length])

/-! ### Counters -/

/-- Add `n` to the `k`-byte word at `a`. -/
def addLE (m : Mem) (a k n : ℕ) : Mem := writeLE m a k (readLE m a k + n)

/-- The sum, modulo the width of the word. -/
theorem readLE_addLE (m : Mem) (a k n : ℕ) :
    readLE (addLE m a k n) a k = (readLE m a k + n) % 256 ^ k := by
  have h := read_write m a (wordLE k (readLE m a k + n))
  rw [wordLE_length] at h
  rw [addLE, writeLE, readLE, h, ofWordLE_wordLE]

/-- Memories that agree below `s` agree after an addition there. -/
theorem addLE_congr {s : ℕ} (h : ∀ x < s, m x = m' x) (ha : a + k ≤ s) (n : ℕ) :
    ∀ x < s, addLE m a k n x = addLE m' a k n x := by
  intro x hx
  have hread : readLE m a k = readLE m' a k := readLE_congr fun i hi => h (a + i) (by omega)
  simp only [addLE, writeLE, write, hread, h x hx]

/-- Only the low bytes of a number are stored. -/
theorem wordLE_mod (k n : ℕ) : wordLE k (n % 256 ^ k) = wordLE k n := by
  induction k generalizing n with
  | zero => rfl
  | succ k ih =>
    rw [wordLE, wordLE, pow_succ, Nat.mod_mul_left_div_self, ih,
      ← UInt8.ofNat_mod_size, ← UInt8.ofNat_mod_size (x := n)]
    congr 2
    exact Nat.mod_mul_left_mod n (256 ^ k) 256

/-- Two additions to one word. -/
theorem addLE_addLE_self (m : Mem) (a k n l : ℕ) :
    addLE (addLE m a k n) a k l = writeLE m a k (readLE m a k + n + l) := by
  rw [addLE, readLE_addLE, addLE, writeLE, writeLE, write_write_same _ _ (by simp), writeLE,
    ← wordLE_mod, Nat.mod_add_mod, wordLE_mod]

/-- Additions to words that are equal or apart commute. -/
theorem addLE_comm (m : Mem) (h : a = b ∨ Apart a k b k) (n l : ℕ) :
    addLE (addLE m a k n) b k l = addLE (addLE m b k l) a k n := by
  rcases h with rfl | h
  · rw [addLE_addLE_self, addLE_addLE_self, Nat.add_right_comm]
  · simp only [addLE]
    rw [readLE_writeLE_of_apart m h, readLE_writeLE_of_apart m h.symm]
    exact write_comm_of_apart m (by simpa using h)

end FlatMem
