import Mathlib.Algebra.Group.Nat.Defs
import Mathlib.Data.Nat.Bitwise

namespace Drain

/-!
# Loops that drain a word

The loop `while (w) { set++; if (w & 1) visit(set); w >>= shift; }` over a word that is kept in
the state the visits work on.

* `Cell` — a word inside a state, with the laws of reading and replacing it;
* `drain` — the loop;
* `foldl_range_inv`, `foldl_filter_range'_inv` — invariants of counting loops, and as their
  special case loops in closed form (`foldl_range_eq`, `foldl_filter_range'_eq`);
* `drain_keeps` — what the visits and the updates of the word keep, the loop keeps;
* `drain_eq` — as long as the visits have nothing to do with the word, the loop visits the
  positions whose bit is set in the word it found, in order, and leaves the word zero.
-/

variable {σ : Type*}

/-- A word inside a state; the words are the numbers below `top`. -/
structure Cell (σ : Type*) where
  top : ℕ
  get : σ → ℕ
  set : σ → ℕ → σ
  get_lt : ∀ s, get s < top
  get_set : ∀ s v, v < top → get (set s v) = v
  set_set : ∀ s v w, set (set s v) w = set s w
  set_get : ∀ s, set s (get s) = s

/-- The loop, with a bound on the number of iterations; `k` is the position of the lowest bit
    that is left. -/
def drain (c : Cell σ) (shift : ℕ) (visit : σ → ℕ → σ) : ℕ → ℕ → σ → σ
  | 0, _, s => s
  | n + 1, k, s =>
    if c.get s = 0 then s
    else
      let s' := if c.get s % 2 = 1 then visit s k else s
      drain c shift visit n (k + 1) (c.set s' (c.get s' >>> shift))

variable {s : σ} {f : σ → ℕ → σ} {n : ℕ}

theorem drain_of_get_zero {c : Cell σ} {shift : ℕ} {visit : σ → ℕ → σ} (h : c.get s = 0) (n k : ℕ) :
    drain c shift visit n k s = s := by
  cases n with
  | zero => rfl
  | succ n => rw [drain, if_pos h]

/-- **Counting loops.** What holds of the state after `i` rounds, if every round takes it from
    `i` to `i + 1`, holds after the loop. -/
theorem foldl_range_inv {I : ℕ → σ → Prop} (hstep : ∀ i < n, ∀ s, I i s → I (i + 1) (f s i))
    (hs : I 0 s) : I n ((List.range n).foldl f s) := by
  induction n with
  | zero => exact hs
  | succ n ih =>
    rw [List.range_succ, List.foldl_append]
    exact hstep n (by omega) _ (ih fun i hi => hstep i (by omega))

/-- A loop over the marked numbers of a range; the numbers that are not marked count as rounds
    that leave the state alone. -/
theorem foldl_filter_range'_inv {I : ℕ → σ → Prop} {p : ℕ → Bool} {a : ℕ}
    (hmarked : ∀ i < n, p (a + i) = true → ∀ s, I i s → I (i + 1) (f s (a + i)))
    (hskipped : ∀ i < n, p (a + i) = false → ∀ s, I i s → I (i + 1) s) (hs : I 0 s) :
    I n (((List.range' a n).filter p).foldl f s) := by
  rw [List.foldl_filter, List.range'_eq_map_range, List.foldl_map]
  refine foldl_range_inv (I := I) (fun i hi s hI => ?_) hs
  cases hp : p (a + i) with
  | true => rw [if_pos rfl]; exact hmarked i hi hp s hI
  | false => rw [if_neg Bool.false_ne_true]; exact hskipped i hi hp s hI

/-- A counting loop whose state after `i` rounds is `F i`. -/
theorem foldl_range_eq {F : ℕ → σ} (hstep : ∀ i < n, f (F i) i = F (i + 1)) :
    (List.range n).foldl f (F 0) = F n :=
  foldl_range_inv (I := fun i s => s = F i) (fun i hi _ hs => hs ▸ hstep i hi) rfl

/-- A loop over the marked numbers of a range whose state after the first `i` numbers, marked
    or not, is `F i`. -/
theorem foldl_filter_range'_eq {p : ℕ → Bool} {a : ℕ} {F : ℕ → σ}
    (hmarked : ∀ i < n, p (a + i) = true → f (F i) (a + i) = F (i + 1))
    (hskipped : ∀ i < n, p (a + i) = false → F i = F (i + 1)) :
    ((List.range' a n).filter p).foldl f (F 0) = F n :=
  foldl_filter_range'_inv (I := fun i s => s = F i) (fun i hi hp _ hs => hs ▸ hmarked i hi hp)
    (fun i hi hp _ hs => hs ▸ hskipped i hi hp) rfl

/-- The positions below `n` that the loop visits for the word `w`. -/
def marks (shift n w : ℕ) : List ℕ := (List.range n).filter fun j => w.testBit (shift * j)

theorem marks_zero (shift n : ℕ) : marks shift n 0 = [] := by
  simp [marks]

/-- The positions of a word are its lowest one and, one further, those of what is left. -/
theorem marks_succ (shift n w : ℕ) :
    marks shift (n + 1) w =
      (if w % 2 = 1 then [0] else []) ++ (marks shift n (w >>> shift)).map (· + 1) := by
  have hrest : (fun j => w.testBit (shift * (j + 1))) =
      fun j => (w >>> shift).testBit (shift * j) := by
    funext j
    rw [Nat.testBit_shiftRight, Nat.mul_add, Nat.mul_one, Nat.add_comm]
  have hlow : w.testBit (shift * 0) = decide (w % 2 = 1) := by
    rw [Nat.mul_zero, Nat.testBit_zero]
  rw [marks, List.range_succ_eq_map, List.filter_cons, List.filter_map, hlow, marks]
  show _ = _ ++ (List.filter _ _).map Nat.succ
  rw [show ((fun j => w.testBit (shift * j)) ∘ Nat.succ) = fun j => w.testBit (shift * (j + 1))
    from rfl, hrest]
  split_ifs <;> simp_all

theorem marks_map_lt {shift w k j : ℕ} (hj : j ∈ (marks shift n w).map (k + 1 + ·)) :
    j < k + (n + 1) := by
  obtain ⟨i, hi, rfl⟩ := List.mem_map.mp hj
  have := List.mem_range.mp (List.mem_filter.mp hi).1
  omega

/-- What the visits and the updates of the word keep, the loop keeps. -/
theorem drain_keeps {c : Cell σ} {shift : ℕ} {visit : σ → ℕ → σ} {P : σ → Prop}
    (hset : ∀ s v, P s → P (c.set s v)) (n k : ℕ) (hvisit : ∀ s, ∀ j < k + n, P s → P (visit s j))
    (hs : P s) : P (drain c shift visit n k s) := by
  induction n generalizing k s with
  | zero => exact hs
  | succ n ih =>
    rw [drain]
    by_cases hzero : c.get s = 0
    · rw [if_pos hzero]
      exact hs
    · rw [if_neg hzero]
      refine ih (k + 1) (fun s j hj => hvisit s j (by omega)) (hset _ _ ?_)
      split_ifs
      · exact hvisit s k (by omega) hs
      · exact hs

section Visits

variable {c : Cell σ} {shift : ℕ} {visit : σ → ℕ → σ} {P : σ → Prop}

variable {s : σ}

/-- Visits that commute with replacing the word leave it alone. -/
theorem get_visit {k : ℕ} (hcomm : ∀ v, visit (c.set s v) k = c.set (visit s k) v) :
    c.get (visit s k) = c.get s := by
  have hsame : visit s k = c.set (visit s k) (c.get s) := by
    rw [← hcomm, c.set_get]
  rw [hsame, c.get_set _ _ (c.get_lt s)]

/-- A list of visits commutes with replacing the word. -/
theorem foldl_visit_set {js : List ℕ} (hvisit : ∀ s, ∀ j ∈ js, P s → P (visit s j))
    (hcomm : ∀ s, ∀ j ∈ js, P s → ∀ v, visit (c.set s v) j = c.set (visit s j) v) (hs : P s)
    (v : ℕ) : js.foldl visit (c.set s v) = c.set (js.foldl visit s) v := by
  induction js generalizing s with
  | nil => rfl
  | cons j js ih =>
    rw [List.foldl_cons, List.foldl_cons, hcomm s j (List.mem_cons_self ..) hs v]
    exact ih (fun s j' hj' => hvisit s j' (List.mem_cons_of_mem j hj'))
      (fun s j' hj' => hcomm s j' (List.mem_cons_of_mem j hj'))
      (hvisit s j (List.mem_cons_self ..) hs)

/-- **Draining a word.** If the visits keep `P` and commute with replacing the word, the loop
    is the visits of the marked positions, in order, with the word zero afterwards. -/
theorem drain_eq (hP : ∀ s v, P s → P (c.set s v)) (n k : ℕ)
    (hvisit : ∀ s, ∀ j, j < k + n → P s → P (visit s j))
    (hcomm : ∀ s, ∀ j, j < k + n → P s → ∀ v, visit (c.set s v) j = c.set (visit s j) v) (hs : P s)
    (hw : c.get s < 2 ^ (shift * n)) :
    drain c shift visit n k s =
      c.set (((marks shift n (c.get s)).map (k + ·)).foldl visit s) 0 := by
  induction n generalizing k s with
  | zero =>
    have hzero : c.get s = 0 := by simpa using hw
    have hset : c.set s 0 = s := by rw [← hzero, c.set_get]
    exact hset.symm
  | succ n ih =>
    rw [drain]
    by_cases hzero : c.get s = 0
    · rw [if_pos hzero, hzero, marks_zero]
      have hset : c.set s 0 = s := by rw [← hzero, c.set_get]
      exact hset.symm
    · rw [if_neg hzero]
      -- the state after the visit of the lowest position, if it is marked
      have hfirst : ∀ t, t = (if c.get s % 2 = 1 then visit s k else s) →
          P t ∧ c.get t = c.get s := by
        rintro t rfl
        split_ifs
        · exact ⟨hvisit s k (by omega) hs, get_visit (hcomm s k (by omega) hs)⟩
        · exact ⟨hs, rfl⟩
      obtain ⟨hPt, hget⟩ := hfirst _ rfl
      have hshift : c.get s >>> shift < 2 ^ (shift * n) := by
        rw [Nat.shiftRight_eq_div_pow, Nat.div_lt_iff_lt_mul (Nat.two_pow_pos shift), ← pow_add]
        exact hw
      have htop : c.get s >>> shift < c.top :=
        lt_of_le_of_lt (Nat.shiftRight_le _ _) (c.get_lt s)
      have hread := c.get_set (if c.get s % 2 = 1 then visit s k else s) _ htop
      have hrest := ih (k + 1) (fun s j hj => hvisit s j (by omega))
        (fun s j hj => hcomm s j (by omega))
        (hP (if c.get s % 2 = 1 then visit s k else s) (c.get s >>> shift) hPt)
        (by rw [hread]; exact hshift)
      show drain c shift visit n (k + 1) (c.set _ (c.get (ite _ _ _) >>> shift)) = _
      rw [hget, hrest, hread, foldl_visit_set
        (fun s j hj => hvisit s j (marks_map_lt hj)) (fun s j hj => hcomm s j (marks_map_lt hj))
        hPt, c.set_set, marks_succ, List.map_append, List.foldl_append, List.map_map]
      have hshifted : (k + ·) ∘ (· + 1) = (k + 1 + · : ℕ → ℕ) := by
        funext j
        show k + (j + 1) = k + 1 + j
        omega
      rw [hshifted]
      split_ifs <;> rfl

end Visits

end Drain
