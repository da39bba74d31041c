import Firestarter.Lib.FlatMem

namespace FlatMem

/-!
# Arrays of words and runs of strings in flat memory

What stands at an address is said by a predicate on the memory; a memory that reads alike at
another address (`read m' b n = read m a n`) has the same things there.

* `WordsAt` — an array of eight-byte words, with its elements as numbers;
* `StringAt`, `StringsAt` — a string with its NUL, and strings one behind the other;
* `starts`, `span` — where the strings of a run start, and how long the run is;
* `WordsAt.shift`, `StringAt.shift` — the copies.
-/

variable {m m' : Mem} {a b n : ℕ}

/-! ### Copies -/

/-- A part of what reads alike reads alike. -/
theorem read_part (h : read m' b n = read m a n) {k l : ℕ} (hkl : k + l ≤ n) :
    read m' (b + k) l = read m (a + k) l := by
  obtain ⟨r, rfl⟩ := Nat.exists_eq_add_of_le hkl
  rw [read_add, read_add, read_add, read_add] at h
  have hkl := (List.append_inj' h (by simp only [read_length])).1
  exact (List.append_inj hkl (by simp only [read_length])).2

/-! ### Words -/

/-- The words `ws` stand at `a`, eight bytes each. -/
def WordsAt (m : Mem) : ℕ → List ℕ → Prop
  | _, [] => True
  | a, w :: ws => readLE m a 8 = w ∧ WordsAt m (a + 8) ws

/-- `WordsAt` is a finite check. -/
instance WordsAt.instDecidable (m : Mem) : ∀ a ws, Decidable (WordsAt m a ws)
  | _, [] => isTrue trivial
  | a, _ :: ws =>
    haveI := WordsAt.instDecidable m (a + 8) ws
    inferInstanceAs (Decidable (_ ∧ _))

/-- An array in two parts. -/
theorem wordsAt_append {ws vs : List ℕ} :
    WordsAt m a (ws ++ vs) ↔ WordsAt m a ws ∧ WordsAt m (a + 8 * ws.length) vs := by
  induction ws generalizing a with
  | nil => simp [WordsAt]
  | cons w ws ih =>
    have hlen : a + 8 + 8 * ws.length = a + 8 * (w :: ws).length := by
      rw [List.length_cons]; omega
    simp only [List.cons_append, WordsAt, ih, hlen, and_assoc]

/-- **Words in a copy.** -/
theorem WordsAt.shift (h : read m' b n = read m a n) :
    ∀ {k : ℕ} {ws : List ℕ}, k + 8 * ws.length ≤ n → WordsAt m (a + k) ws → WordsAt m' (b + k) ws
  | _, [], _, _ => trivial
  | k, w :: ws, hn, ⟨hw, hws⟩ => by
    rw [List.length_cons] at hn
    refine ⟨?_, ?_⟩
    · rw [readLE, read_part h (by omega)]
      exact hw
    · have hnext := WordsAt.shift h (show k + 8 + 8 * ws.length ≤ n by omega) hws
      exact hnext

/-- Words outside of what changed. -/
theorem WordsAt.congr {ws : List ℕ} (h : ∀ x, a ≤ x → x < a + 8 * ws.length → m' x = m x)
    (hws : WordsAt m a ws) : WordsAt m' a ws :=
  WordsAt.shift (k := 0) (n := 8 * ws.length)
    (read_congr fun i hi => h (a + i) (Nat.le_add_right a i) (by omega)) (by omega) hws

/-! ### Strings -/

/-- The string `t` stands at `a`, with its NUL. -/
def StringAt (m : Mem) (a : ℕ) (t : List UInt8) : Prop :=
  read m a (t.length + 1) = t ++ [0] ∧ 0 ∉ t

instance (m : Mem) (a : ℕ) (t : List UInt8) : Decidable (StringAt m a t) :=
  inferInstanceAs (Decidable (_ ∧ _))

variable {t : List UInt8} {ts : List (List UInt8)}

/-- **A string in a copy.** -/
theorem StringAt.shift (h : read m' b n = read m a n) {k : ℕ} (hn : k + (t.length + 1) ≤ n)
    (ht : StringAt m (a + k) t) : StringAt m' (b + k) t :=
  ⟨(read_part h hn).trans ht.1, ht.2⟩

/-- A string outside of what changed. -/
theorem StringAt.congr (h : ∀ x, a ≤ x → m' x = m x) (ht : StringAt m a t) : StringAt m' a t :=
  ⟨(read_congr fun i _ => h (a + i) (Nat.le_add_right a i)).trans ht.1, ht.2⟩

/-- The first byte of a string and the rest of it. -/
theorem stringAt_cons {c : UInt8} :
    StringAt m a (c :: t) ↔ m a = c ∧ c ≠ 0 ∧ StringAt m (a + 1) t := by
  have hread : read m a ((c :: t).length + 1) = m a :: read m (a + 1) (t.length + 1) := by
    rw [List.length_cons, Nat.add_comm, read_add]
    rfl
  simp only [StringAt, hread, List.cons_append, List.cons.injEq, List.mem_cons, not_or, ne_eq,
    eq_comm (a := (0 : UInt8))]
  tauto

/-- The strings `ts` stand at `a`, one behind the other. -/
def StringsAt (m : Mem) : ℕ → List (List UInt8) → Prop
  | _, [] => True
  | a, t :: ts => StringAt m a t ∧ StringsAt m (a + t.length + 1) ts

/-- `StringsAt` is a finite check. -/
instance StringsAt.instDecidable (m : Mem) : ∀ a ts, Decidable (StringsAt m a ts)
  | _, [] => isTrue trivial
  | a, t :: ts =>
    haveI := StringsAt.instDecidable m (a + t.length + 1) ts
    inferInstanceAs (Decidable (_ ∧ _))

/-- The bytes that strings take with their NULs. -/
def span : List (List UInt8) → ℕ
  | [] => 0
  | t :: ts => t.length + 1 + span ts

/-- Where the strings of a run at `a` start. -/
def starts : ℕ → List (List UInt8) → List ℕ
  | _, [] => []
  | a, t :: ts => a :: starts (a + t.length + 1) ts

@[simp] theorem span_append (ts us : List (List UInt8)) : span (ts ++ us) = span ts + span us := by
  induction ts with
  | nil => rw [List.nil_append, span, Nat.zero_add]
  | cons t ts ih =>
    rw [List.cons_append, span, ih, span]
    omega

/-- A run in two parts. -/
theorem stringsAt_append {us : List (List UInt8)} :
    StringsAt m a (ts ++ us) ↔ StringsAt m a ts ∧ StringsAt m (a + span ts) us := by
  induction ts generalizing a with
  | nil => simp [StringsAt, span]
  | cons t ts ih =>
    simp only [List.cons_append, StringsAt, ih, span, and_assoc, Nat.add_assoc]

/-- At each start stands a string of the run, which ends within it. -/
theorem exists_stringAt {q : ℕ} (h : StringsAt m a ts) (hq : q ∈ starts a ts) :
    ∃ t, StringAt m q t ∧ a ≤ q ∧ q + (t.length + 1) ≤ a + span ts := by
  induction ts generalizing a with
  | nil => exact absurd hq List.not_mem_nil
  | cons t ts ih =>
    rcases List.mem_cons.mp hq with rfl | hq
    · exact ⟨t, h.1, le_rfl, by rw [span]; omega⟩
    · obtain ⟨u, hu, hlo, hhi⟩ := ih h.2 hq
      exact ⟨u, hu, by omega, by rw [span]; omega⟩

/-- The last string of a run starts last. -/
theorem le_of_mem_starts {q : ℕ} (hq : q ∈ starts a (ts ++ [t])) : q ≤ a + span ts := by
  induction ts generalizing a with
  | nil => exact le_of_eq (List.mem_singleton.mp hq)
  | cons u us ih =>
    rcases List.mem_cons.mp hq with rfl | hq
    · exact Nat.le_add_right _ _
    · have := ih hq
      rw [span]
      omega

end FlatMem
