import Firestarter.Hybrid.Machine

namespace Firestarter.Hybrid

/-!
# The array of delayed frees

`rcvry_ra_delayed_free` and `rcvry_ra_free_freelist` with the array and the position they work
on.  `freeListPos` is the index of the last entry, and −1 when there is none.

* `Holds` — **representation**: the entries up to `freeListPos` spell a list of pointers;
* `raDelayedFree_refines`, `raFreeFreelist_refines` — the runtime's list is what the array
  represents;
* `delayed_frees_iff` — the rounds whose flush frees what was passed.
-/

/-! ### The two functions -/

/-- The static variables of the free list. -/
structure FreeArray where
  freeList : ℤ → ℕ
  freeListPos : ℤ
  /-- `rcvry_num_delayed_free_calls` -/
  numDelayedFreeCalls : ℕ

/-- The variables as initialised; the array is zero. -/
def freeArrayInit : FreeArray := ⟨fun _ => 0, -1, 0⟩

/-- `rcvry_ra_delayed_free`; `none` when the assert aborts. -/
def rcvryRaDelayedFree (s : FreeArray) (ptr : ℕ) : Option FreeArray :=
  -- the position is advanced inside the assert
  let pos := s.freeListPos + 1
  if pos < rcvryFreeListSize then
    some
      { freeList := Function.update s.freeList pos ptr
        freeListPos := pos
        numDelayedFreeCalls := uint32 (s.numDelayedFreeCalls + 1) }
  else none

/-- `rcvry_ra_free_freelist`: the pointers it frees, in order, and the state it leaves. -/
def rcvryRaFreeFreelist (s : FreeArray) : List ℕ × FreeArray :=
  -- `for (int i = 0; i < freeListPos; i++)`
  ((List.range s.freeListPos.toNat).map fun i : ℕ => s.freeList i, { s with freeListPos := -1 })

/-- A round: one call for each pointer, then a flush. -/
def freeRound (s : FreeArray) (ptrs : List ℕ) : Option (List ℕ × FreeArray) :=
  (ptrs.foldlM rcvryRaDelayedFree s).map rcvryRaFreeFreelist

/-- Any number of rounds, with what each flush frees. -/
def freeRounds : FreeArray → List (List ℕ) → Option (List (List ℕ) × FreeArray)
  | s, [] => some ([], s)
  | s, ptrs :: rounds => do
    let (freed, s) ← freeRound s ptrs
    let (later, s) ← freeRounds s rounds
    return (freed :: later, s)

/-! ### Representation -/

/-- The array holds the pointers of `l`. -/
structure Holds (s : FreeArray) (l : List ℕ) : Prop where
  pos : s.freeListPos = l.length - 1
  entry : ∀ (i : ℕ) p, l[i]? = some p → s.freeList i = p

theorem holds_init : Holds freeArrayInit [] := ⟨rfl, fun _ _ hp => absurd hp nofun⟩

variable {s : FreeArray} {l : List ℕ}

/-- **Push.** While the list is not full the call appends its pointer. -/
theorem Holds.push (h : Holds s l) (hroom : l.length < rcvryFreeListSize) (ptr : ℕ) :
    ∃ s', rcvryRaDelayedFree s ptr = some s' ∧ Holds s' (l ++ [ptr]) := by
  have hpos : s.freeListPos + 1 = l.length := by
    have := h.pos
    omega
  refine ⟨_, by rw [rcvryRaDelayedFree, if_pos (by omega)], ?_, fun i p hp => ?_⟩
  · simp only [List.length_append, List.length_singleton]
    omega
  · simp only [hpos]
    rcases Nat.lt_or_ge i l.length with hi | hi
    · rw [List.getElem?_append_left hi] at hp
      rw [Function.update_of_ne (by omega), h.entry i p hp]
    · -- the new entry
      obtain rfl : i = l.length := by
        have := (List.getElem?_eq_some_iff.mp hp).1
        rw [List.length_append, List.length_singleton] at this
        omega
      rw [List.getElem?_concat_length, Option.some.injEq] at hp
      rw [Function.update_self, hp]

/-- With a full list the assert aborts. -/
theorem Holds.push_full (h : Holds s l) (hfull : rcvryFreeListSize ≤ l.length) (ptr : ℕ) :
    rcvryRaDelayedFree s ptr = none := by
  have hpos := h.pos
  rw [rcvryRaDelayedFree, if_neg (by omega)]

/-- **Run of pushes.** -/
theorem Holds.pushes (h : Holds s l) (ptrs : List ℕ)
    (hroom : l.length + ptrs.length ≤ rcvryFreeListSize) :
    ∃ s', ptrs.foldlM rcvryRaDelayedFree s = some s' ∧ Holds s' (l ++ ptrs) := by
  induction ptrs generalizing s l with
  | nil => exact ⟨s, rfl, by rwa [List.append_nil]⟩
  | cons ptr ptrs ih =>
    rw [List.length_cons] at hroom
    obtain ⟨s₁, hs₁, h₁⟩ := h.push (by omega) ptr
    obtain ⟨s', hs', h'⟩ := ih h₁ (by
      rw [List.length_append, List.length_singleton]
      omega)
    exact ⟨s', Runs.run_cons.mpr ⟨s₁, hs₁, hs'⟩, by rwa [List.append_assoc] at h'⟩

/-- **Flush.** The loop stops in front of the last entry. -/
theorem Holds.flush (h : Holds s l) :
    (rcvryRaFreeFreelist s).1 = l.dropLast ∧ Holds (rcvryRaFreeFreelist s).2 [] := by
  refine ⟨?_, rfl, fun _ _ hp => absurd hp nofun⟩
  have hcount : s.freeListPos.toNat = l.length - 1 := by
    have := h.pos
    omega
  rw [rcvryRaFreeFreelist, hcount]
  apply List.ext_getElem
  · simp
  · intro i hi hi'
    rw [List.length_dropLast] at hi'
    rw [List.getElem_map, List.getElem_range, List.getElem_dropLast]
    exact h.entry i _ (List.getElem?_eq_getElem (by omega))

/-! ### The runtime's list -/

/-- **Refinement.** The runtime's `raDelayedFree` aborts exactly when the array's does, and
    otherwise the array goes on to represent its list. -/
theorem raDelayedFree_refines {a : FreeArray} {s : HState} (h : Holds a s.freeList) (ptr : ℕ) :
    (rcvryRaDelayedFree a ptr = none ∧ raDelayedFree s ptr = none) ∨
      ∃ a' s', rcvryRaDelayedFree a ptr = some a' ∧ raDelayedFree s ptr = some s' ∧
        Holds a' s'.freeList := by
  by_cases hroom : s.freeList.length < rcvryFreeListSize
  · obtain ⟨a', ha', h'⟩ := h.push hroom ptr
    exact Or.inr ⟨a', _, ha', by rw [raDelayedFree, if_pos hroom], h'⟩
  · exact Or.inl ⟨h.push_full (by omega) ptr, by rw [raDelayedFree, if_neg hroom]⟩

/-- **Refinement.** The runtime's flush frees what the array's loop frees. -/
theorem raFreeFreelist_refines {a : FreeArray} {s : HState} (h : Holds a s.freeList) :
    (raFreeFreelist s).freed = s.freed ++ (rcvryRaFreeFreelist a).1 ∧
      Holds (rcvryRaFreeFreelist a).2 (raFreeFreelist s).freeList := by
  obtain ⟨hfreed, hempty⟩ := h.flush
  exact ⟨by rw [hfreed]; rfl, hempty⟩

/-! ### Rounds -/

/-- A round that fits frees all its pointers but the last. -/
theorem freeRound_eq (h : Holds s []) {ptrs : List ℕ} (hlen : ptrs.length ≤ rcvryFreeListSize) :
    ∃ s', freeRound s ptrs = some (ptrs.dropLast, s') ∧ Holds s' [] := by
  obtain ⟨s₁, hs₁, h₁⟩ := h.pushes ptrs (by rwa [List.length_nil, Nat.zero_add])
  obtain ⟨hfreed, hempty⟩ := h₁.flush
  rw [List.nil_append] at hfreed
  exact ⟨_, by rw [freeRound, hs₁, Option.map_some, ← hfreed], hempty⟩

/-- **Run.** What the flushes of any number of rounds free. -/
theorem freeRounds_eq (h : Holds s []) {rounds : List (List ℕ)}
    (hlen : ∀ ptrs ∈ rounds, ptrs.length ≤ rcvryFreeListSize) :
    ∃ s', freeRounds s rounds = some (rounds.map List.dropLast, s') := by
  induction rounds generalizing s with
  | nil => exact ⟨s, rfl⟩
  | cons ptrs rounds ih =>
    rw [List.forall_mem_cons] at hlen
    obtain ⟨s₁, hs₁, h₁⟩ := freeRound_eq h hlen.1
    obtain ⟨s', hs'⟩ := ih h₁ hlen.2
    exact ⟨s', by simp [freeRounds, hs₁, hs']⟩

/-- A list is its own initial part only if it is empty. -/
theorem dropLast_eq_self_iff (l : List ℕ) : l.dropLast = l ↔ l = [] := by
  constructor
  · intro h
    have hlen := congrArg List.length h
    rw [List.length_dropLast] at hlen
    exact List.length_eq_zero_iff.mp (by omega)
  · rintro rfl
    rfl

/-- **Delayed frees.** Every sequence of rounds that fit the list runs to its end, and a flush
    frees the pointers passed since the previous one, in order and nothing else, exactly when
    there were none. -/
theorem delayed_frees_iff (rounds : List (List ℕ))
    (hlen : ∀ ptrs ∈ rounds, ptrs.length ≤ rcvryFreeListSize) :
    ∃ freed s, freeRounds freeArrayInit rounds = some (freed, s) ∧
      freed.length = rounds.length ∧
      (∀ (i : ℕ) ptrs l, rounds[i]? = some ptrs → freed[i]? = some l → (l = ptrs ↔ ptrs = [])) ∧
      (freed = rounds ↔ ∀ ptrs ∈ rounds, ptrs = []) := by
  obtain ⟨s, hs⟩ := freeRounds_eq holds_init hlen
  refine ⟨_, s, hs, List.length_map _, ?_, ?_⟩
  · intro i ptrs l hptrs hl
    rw [List.getElem?_map, hptrs, Option.map_some, Option.some.injEq] at hl
    rw [← hl]
    exact dropLast_eq_self_iff ptrs
  · constructor
    · intro h ptrs hptrs
      rw [← dropLast_eq_self_iff]
      exact List.map_inj_left.mp (h.trans (List.map_id rounds).symm) ptrs hptrs
    · intro h
      exact (List.map_congr_left fun ptrs hptrs =>
        (dropLast_eq_self_iff ptrs).mpr (h ptrs hptrs)).trans (List.map_id rounds)

/-- Two rounds without a pointer. -/
theorem delayed_frees_iff_idle :
    ∃ freed s, freeRounds freeArrayInit [[], []] = some (freed, s) ∧ freed = [[], []] := by
  obtain ⟨freed, s, hrun, -, -, hiff⟩ := delayed_frees_iff [[], []] (by simp)
  exact ⟨freed, s, hrun, hiff.mpr (by simp)⟩

/-- A round of one pointer, then a round of three: the last of each is never freed. -/
theorem last_pointer_never_freed :
    (freeRounds freeArrayInit [[0xa000], [0xb000, 0xc000, 0xd000]]).map Prod.fst =
      some [[], [0xb000, 0xc000]] := by
  decide +kernel

end Firestarter.Hybrid
