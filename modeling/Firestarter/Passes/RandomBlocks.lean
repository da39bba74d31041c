import Mathlib.Data.List.Flatten
import Firestarter.Lib.RejectionSampling
import Firestarter.Passes.AssignIds

namespace Firestarter.Passes.RandomBlocks

open RejectionSampling

/-!
# Randomly selected blocks (`-fault-randombb-fif=R` in `FaultInjector.cpp`)

The pass collects the basic blocks of the functions it may instrument.  With
`-fault-only-marked-basicblocks` it files them under the ids that an earlier pass gave them, in an
array whose slots are empty at first.  Then it draws blocks until it has `R` distinct ones.

* `allBasicBlocks`, `selectBlocks`: the code;
* `draw_marked_fails`: with marked blocks the index can be one behind the array;
* `random_blocks_sound_iff`: when the selection is sound.
-/

/-! ### The code -/

section Source

variable {B : Type} [DecidableEq B]

/-- What `can_instrument_function` answers for a function, and its blocks. -/
structure Func (B : Type) where
  canInstrument : Bool
  blocks : List B

/-- **A module**: its blocks are distinct, and the last id of the namespace is the largest one. -/
structure Module (B : Type) [DecidableEq B] where
  functions : List (Func B)
  marks : Metadata B
  distinct : (functions.flatMap Func.blocks).Nodup
  ids_le : ∀ b, getAssignedID marks b ≤ marks.lastId

/-- The blocks of the functions that may be instrumented. -/
def Module.blocks (M : Module B) : List B :=
  (M.functions.filter Func.canInstrument).flatMap Func.blocks

/-- The blocks that may be instrumented: all of them, or those with a mark. -/
def Module.instrumentable (M : Module B) (marked : Bool) : List B :=
  if marked then M.blocks.filter fun b => getAssignedID M.marks b ≠ 0 else M.blocks

/-- `totalBBs`: `getNextUnassignedID` answers the last id. -/
def Module.totalBBs (M : Module B) (marked : Bool) : ℕ := if marked then M.marks.lastId else 0

/-- `AllBasicBlocks`, with `none` for `NULL`. -/
def Module.allBasicBlocks (M : Module B) (marked : Bool) : List (Option B) :=
  if M.totalBBs marked = 0 then M.blocks.map some
  else
    M.blocks.foldl (fun all b => all.set (getAssignedID M.marks b) (some b))
      (List.replicate (M.totalBBs marked + 1) none)

/-- A draw: `AllBasicBlocks[offset + rand() % AllBasicBlocks.size()]`.  It fails when the index is
    behind the array, and when there is nothing to divide by. -/
def Module.draw (M : Module B) (marked : Bool) (rand : ℕ → ℕ) (k : ℕ) : Option (Option B) :=
  let offset := if M.totalBBs marked = 0 then 0 else 1
  let size := (M.allBasicBlocks marked).length
  if size = 0 then none else (M.allBasicBlocks marked)[offset + rand k % size]?

/-- The selection of `R` blocks, for a number of draws; `none` when the pass stops before it:
    `std::stoul` throws, or the namespace has no ids.  The number is kept in an `unsigned`. -/
def Module.selectBlocks (M : Module B) (marked : Bool) (R : ℕ) (rand : ℕ → ℕ) (fuel : ℕ) :
    Option (Outcome (Option B)) :=
  if 2 ^ 64 ≤ R then none
  else if marked ∧ M.totalBBs marked = 0 then none
  else some (sample (M.draw marked rand) fuel (R % 2 ^ 32) 0 [])

end Source

/-! ### Sound selections -/

section Sound

variable {B : Type} [DecidableEq B]

/-- A sequence that takes every residue again and again. -/
def Fair (rand : ℕ → ℕ) (n : ℕ) : Prop := ∀ r < n, ∀ k, ∃ j, k ≤ j ∧ rand j % n = r

/-- **A sound selection**: whatever is drawn, the pass stops before, or it does not index outside
    the array, and it ends with `R` distinct blocks that may be instrumented. -/
def Sound (M : Module B) (marked : Bool) (R : ℕ) : Prop :=
  ∀ rand, Fair rand (M.allBasicBlocks marked).length →
    (∀ fuel, M.selectBlocks marked R rand fuel = none) ∨
    (∀ fuel, M.selectBlocks marked R rand fuel ≠ some .failed) ∧
      ∃ fuel result, M.selectBlocks marked R rand fuel = some (.done result) ∧
        result.Nodup ∧ result.length = R ∧
        ∀ x ∈ result, ∃ b ∈ M.instrumentable marked, x = some b

/-- Counting up is fair, from any number on. -/
theorem fair_add (c n : ℕ) : Fair (fun k => k + c) n := by
  intro r hr k
  have hle : k + c ≤ n * (k + c) := Nat.le_mul_of_pos_left _ (Nat.zero_lt_of_lt hr)
  refine ⟨n * (k + c) + r - c, by omega, ?_⟩
  show (n * (k + c) + r - c + c) % n = r
  rw [Nat.sub_add_cancel (by omega), Nat.mul_add_mod, Nat.mod_eq_of_lt hr]

/-! ### All blocks -/

theorem allBasicBlocks_unmarked (M : Module B) : M.allBasicBlocks false = M.blocks.map some := rfl

theorem nodup_blocks (M : Module B) : M.blocks.Nodup :=
  M.distinct.sublist (List.filter_sublist.flatMap _)

variable {M : Module B} {R : ℕ}

/-- A draw is a block of the module. -/
theorem mem_of_draw_unmarked {rand : ℕ → ℕ} {k : ℕ} {x : Option B}
    (h : M.draw false rand k = some x) : ∃ b ∈ M.blocks, x = some b := by
  unfold Module.draw at h
  dsimp only at h
  split at h
  · cases h
  · obtain ⟨b, hb, rfl⟩ := List.mem_map.mp (List.mem_of_getElem? h)
    exact ⟨b, hb, rfl⟩

/-- Every block comes up at its residue. -/
theorem draw_unmarked {rand : ℕ → ℕ} (hne : M.blocks ≠ []) (k : ℕ) :
    M.draw false rand k = (M.blocks.map some)[rand k % M.blocks.length]? := by
  have hlen : (M.blocks.map some).length ≠ 0 := by
    rw [List.length_map]
    exact fun h => hne (List.eq_nil_of_length_eq_zero h)
  show (if (M.blocks.map some).length = 0 then none
    else (M.blocks.map some)[0 + rand k % (M.blocks.map some).length]?) = _
  rw [if_neg hlen, Nat.zero_add, List.length_map]

theorem sound_zero (M : Module B) (marked : Bool) : Sound M marked 0 := by
  intro rand hfair
  by_cases hstop : marked = true ∧ M.totalBBs marked = 0
  · refine .inl fun fuel => ?_
    unfold Module.selectBlocks
    rw [if_neg (by decide), if_pos hstop]
  · have hrun (fuel : ℕ) : M.selectBlocks marked 0 rand fuel = some (.done []) := by
      unfold Module.selectBlocks
      rw [if_neg (by decide), if_neg hstop, Nat.zero_mod, sample_zero]
    refine .inr ⟨fun fuel h => ?_, 0, [], hrun 0, List.nodup_nil, rfl,
      fun x hx => absurd hx List.not_mem_nil⟩
    rw [hrun] at h
    cases h

/-- **Without marks** up to as many blocks can be selected as there are. -/
theorem sound_unmarked (hR : R < 2 ^ 32) (hroom : R ≤ M.blocks.length) : Sound M false R := by
  rcases Nat.eq_zero_or_pos R with rfl | hpos
  · exact sound_zero M false
  · intro rand hfair
    have hrun (fuel : ℕ) : M.selectBlocks false R rand fuel =
        some (sample (M.draw false rand) fuel R 0 []) := by
      unfold Module.selectBlocks
      rw [if_neg (by omega), if_neg (by simp), Nat.mod_eq_of_lt hR]
    refine .inr ?_
    simp only [hrun, ne_eq, Option.some.injEq]
    have hne : M.blocks ≠ [] := fun h => by rw [h, List.length_nil] at hroom; omega
    have hlt (k : ℕ) : rand k % M.blocks.length < M.blocks.length := Nat.mod_lt _ (by omega)
    have hdraw (k : ℕ) : M.draw false rand k ≠ none := by
      rw [draw_unmarked hne, ne_eq, List.getElem?_eq_none_iff, List.length_map, Nat.not_le]
      exact hlt k
    have hcomes : ∀ x ∈ M.blocks.map some, ∀ k, ∃ j, k ≤ j ∧ M.draw false rand j = some x := by
      intro x hx k
      obtain ⟨i, hi, hget⟩ := List.mem_iff_getElem.mp hx
      rw [allBasicBlocks_unmarked, List.length_map] at hfair
      obtain ⟨j, hkj, hj⟩ := hfair i (by rwa [List.length_map] at hi) k
      refine ⟨j, hkj, ?_⟩
      rw [draw_unmarked hne, hj, List.getElem?_eq_some_iff]
      exact ⟨hi, hget⟩
    have hvalues : (M.blocks.map some).Nodup := (nodup_blocks M).map fun _ _ => Option.some.inj
    obtain ⟨fuel, result, hdone⟩ :=
      sample_ends hdraw hvalues hcomes R 0 [] (by simpa using hroom)
    obtain ⟨hnodup, hlen, hdrawn⟩ := sample_done hdone List.nodup_nil
    refine ⟨fun fuel => sample_ne_failed hdraw fuel R 0 [], fuel, result, hdone, hnodup,
      by rw [hlen, List.length_nil, Nat.zero_add], fun x hx => ?_⟩
    rcases hdrawn x hx with hx | ⟨j, hj⟩
    · exact absurd hx List.not_mem_nil
    · exact mem_of_draw_unmarked hj

/-- **Without marks**, what ends with `R` blocks has as many to select from. -/
theorem Sound.room_unmarked (h : Sound M false R) (hR : R < 2 ^ 64) :
    R < 2 ^ 32 ∧ R ≤ M.blocks.length := by
  have hrun (fuel : ℕ) : M.selectBlocks false R (fun k => k + 0) fuel =
      some (sample (M.draw false fun k => k + 0) fuel (R % 2 ^ 32) 0 []) := by
    unfold Module.selectBlocks
    rw [if_neg (by omega), if_neg (by simp)]
  rcases h _ (fair_add 0 _) with hstop | ⟨-, fuel, result, hdone, hnodup, hlen, hsub⟩
  · have hstop := hstop 0
    rw [hrun] at hstop
    cases hstop
  · rw [hrun, Option.some.injEq] at hdone
    obtain ⟨-, hlen', -⟩ := sample_done hdone List.nodup_nil
    have hblocks : result ⊆ M.blocks.map some := fun x hx => by
      obtain ⟨b, hb, rfl⟩ := hsub x hx
      exact List.mem_map_of_mem hb
    have hle := (hnodup.subperm hblocks).length_le
    rw [List.length_map] at hle
    rw [List.length_nil] at hlen'
    have hmod := Nat.mod_lt R (show 0 < 2 ^ 32 by decide)
    omega

/-! ### Marked blocks -/

/-- The array has a slot for each id, and the slot 0. -/
theorem length_allBasicBlocks_marked (hne : M.marks.lastId ≠ 0) :
    (M.allBasicBlocks true).length = M.marks.lastId + 1 := by
  have hfold (bs : List B) (all : List (Option B)) :
      (bs.foldl (fun all b => all.set (getAssignedID M.marks b) (some b)) all).length =
        all.length := by
    induction bs generalizing all with
    | nil => rfl
    | cons b bs ih => rw [List.foldl_cons, ih, List.length_set]
  show (if M.marks.lastId = 0 then M.blocks.map some else _).length = _
  rw [if_neg hne, hfold, List.length_replicate]
  rfl

/-- **With marks** the index can be one behind the array: it is drawn from 1 to the size. -/
theorem draw_marked_fails (hne : M.marks.lastId ≠ 0) :
    M.draw true (fun k => k + M.marks.lastId) 0 = none := by
  show (if (M.allBasicBlocks true).length = 0 then none
    else (M.allBasicBlocks true)[(if M.marks.lastId = 0 then 0 else 1) +
      (0 + M.marks.lastId) % (M.allBasicBlocks true).length]?) = none
  rw [length_allBasicBlocks_marked hne, if_neg (by omega), if_neg hne, Nat.zero_add,
    Nat.mod_eq_of_lt (by omega), List.getElem?_eq_none_iff, length_allBasicBlocks_marked hne]
  omega

/-- So nothing but no block is selected soundly. -/
theorem Sound.eq_zero_marked (h : Sound M true R) (hR : R < 2 ^ 64) (hne : M.marks.lastId ≠ 0) :
    R = 0 := by
  have hrun (fuel : ℕ) : M.selectBlocks true R (fun k => k + M.marks.lastId) fuel =
      some (sample (M.draw true fun k => k + M.marks.lastId) fuel (R % 2 ^ 32) 0 []) := by
    unfold Module.selectBlocks
    rw [if_neg (by omega), if_neg fun h => hne h.2]
  rcases h _ (fair_add M.marks.lastId _) with hstop | ⟨hok, fuel, result, hdone, -, hlen, -⟩
  · have hstop := hstop 0
    rw [hrun] at hstop
    cases hstop
  · cases hr : R % 2 ^ 32 with
    | zero =>
      rw [hrun, hr, sample_zero, Option.some.injEq] at hdone
      cases hdone
      exact hlen.symm
    | succ n =>
      refine absurd ?_ (hok 1)
      rw [hrun, hr]
      simp only [sample, draw_marked_fails hne]

/-! ### When the selection is sound -/

/-- **The selection is sound** when the pass stops before it, when nothing is to be selected, and
    without marks up to the number of blocks, as long as that fits into an `unsigned`. -/
theorem random_blocks_sound_iff (M : Module B) (marked : Bool) (R : ℕ) :
    Sound M marked R ↔
      2 ^ 64 ≤ R ∨ R = 0 ∨ (marked = true ∧ M.marks.lastId = 0) ∨
        (marked = false ∧ R < 2 ^ 32 ∧ R ≤ M.blocks.length) := by
  constructor
  · intro h
    by_cases hR : 2 ^ 64 ≤ R
    · exact .inl hR
    · refine .inr ?_
      cases marked with
      | false => exact .inr (.inr ⟨rfl, h.room_unmarked (by omega)⟩)
      | true =>
        by_cases hne : M.marks.lastId = 0
        · exact .inr (.inl ⟨rfl, hne⟩)
        · exact .inl (h.eq_zero_marked (by omega) hne)
  · rintro (hR | rfl | ⟨rfl, hlast⟩ | ⟨rfl, hR, hroom⟩)
    · refine fun rand _ => .inl fun fuel => ?_
      unfold Module.selectBlocks
      rw [if_pos hR]
    · exact sound_zero M marked
    · refine fun rand _ => .inl fun fuel => ?_
      unfold Module.selectBlocks
      split
      · rfl
      · rw [if_pos ⟨rfl, hlast⟩]
    · exact sound_unmarked hR hroom

/-- A function with two blocks, marked 1 and 2. -/
def twoMarked : Module ℕ where
  functions := [⟨true, [10, 20]⟩]
  marks := ⟨fun b => if b = 10 then 1 else if b = 20 then 2 else 0, 2⟩
  distinct := by decide
  ids_le b := by
    show (if b = 10 then 1 else if b = 20 then 2 else 0) ≤ 2
    split
    · decide
    · split <;> decide

/-- With marks the first draw may fail, and three blocks cannot be selected from two. -/
theorem random_blocks_not_sound :
    twoMarked.selectBlocks true 1 (fun k => k + 2) 1 = some .failed ∧
      ¬ Sound twoMarked true 1 ∧ ¬ Sound twoMarked false 3 := by
  refine ⟨by decide, fun h => ?_, fun h => ?_⟩
  · exact absurd (h.eq_zero_marked (by decide) (by decide)) (by decide)
  · exact absurd (h.room_unmarked (by decide)).2 (by decide)

end Sound

end Firestarter.Passes.RandomBlocks
