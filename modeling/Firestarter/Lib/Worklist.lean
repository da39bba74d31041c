import Mathlib.Data.Fintype.Card
import Mathlib.Data.List.Nodup
import Mathlib.Logic.Relation

namespace Worklist

/-!
# Graph search with a queue

A search takes nodes from the front of a queue and appends the successors it has not seen yet.
The node it starts from is not marked as seen, so it is taken up a second time if an edge leads
back to it.

* `order` — the nodes in the order in which they are taken up;
* `order_isSome` — the search ends;
* `order_start` — behind the first node come, without repetition, the nodes that a path of at
  least one edge leads to;
* `run`, `run_eq_visitAll` — a search that does something at each node is a loop over the order.
-/

variable {ι σ ε : Type} [DecidableEq ι]

/-- The successors that have not been seen, each once. -/
def fresh : List ι → List ι → List ι
  | _, [] => []
  | seen, x :: xs => if x ∈ seen then fresh seen xs else x :: fresh (seen ++ [x]) xs

variable {seen queue l : List ι} {n : ℕ} {g : ι → List ι}

theorem mem_fresh {xs : List ι} {x : ι} : x ∈ fresh seen xs ↔ x ∈ xs ∧ x ∉ seen := by
  induction xs generalizing seen with
  | nil => simp [fresh]
  | cons y xs ih =>
    rw [fresh]
    by_cases hy : y ∈ seen
    · rw [if_pos hy, ih, List.mem_cons]
      refine ⟨fun h => ⟨.inr h.1, h.2⟩, fun h => ⟨h.1.resolve_left ?_, h.2⟩⟩
      rintro rfl
      exact h.2 hy
    · rw [if_neg hy, List.mem_cons, List.mem_cons, ih, List.mem_append, List.mem_singleton]
      constructor
      · rintro (rfl | ⟨hx, hnot⟩)
        · exact ⟨.inl rfl, hy⟩
        · exact ⟨.inr hx, fun hseen => hnot (.inl hseen)⟩
      · rintro ⟨hx, hnot⟩
        by_cases heq : x = y
        · exact .inl heq
        · exact .inr ⟨hx.resolve_left heq, fun h => h.elim hnot heq⟩

theorem nodup_fresh (seen xs : List ι) : (fresh seen xs).Nodup := by
  induction xs generalizing seen with
  | nil => exact List.nodup_nil
  | cons y xs ih =>
    rw [fresh]
    split_ifs
    · exact ih seen
    · refine List.nodup_cons.mpr ⟨fun hy => ?_, ih _⟩
      exact (mem_fresh.mp hy).2 (by simp)

/-- Nothing is fresh if all successors have been seen. -/
theorem fresh_eq_nil {xs : List ι} (h : ∀ x ∈ xs, x ∈ seen) : fresh seen xs = [] :=
  List.eq_nil_iff_forall_not_mem.mpr fun x hx => (mem_fresh.mp hx).2 (h x (mem_fresh.mp hx).1)

/-- The nodes of a search from `queue` on, in the order in which they are taken up. -/
def order (g : ι → List ι) : ℕ → List ι → List ι → Option (List ι)
  | _, [], _ => some []
  | 0, _ :: _, _ => none
  | n + 1, b :: queue, seen =>
    (order g n (queue ++ fresh seen (g b)) (seen ++ fresh seen (g b))).map (b :: ·)

/-! ### The search ends -/

/-- The seen nodes stay without repetition. -/
theorem nodup_append_fresh (h : seen.Nodup) (xs : List ι) : (seen ++ fresh seen xs).Nodup := by
  refine List.nodup_append.mpr ⟨h, nodup_fresh seen xs, ?_⟩
  rintro a ha b hb rfl
  exact (mem_fresh.mp hb).2 ha

/-- **Enough fuel**: one step for each node in the queue and for each that has not been seen. -/
theorem order_isSome [Fintype ι] (g : ι → List ι) (hseen : seen.Nodup)
    (hfuel : queue.length + Fintype.card ι ≤ n + seen.length) : (order g n queue seen).isSome := by
  induction n generalizing queue seen with
  | zero =>
    have hcard := hseen.length_le_card
    have hnil : queue = [] := List.eq_nil_of_length_eq_zero (by omega)
    rw [hnil]
    rfl
  | succ n ih =>
    cases queue with
    | nil => rfl
    | cons b queue =>
      rw [order, Option.isSome_map]
      apply ih (nodup_append_fresh hseen (g b))
      simp only [List.length_append, List.length_cons] at hfuel ⊢
      omega

/-! ### What the search finds -/

/-- What is known about the nodes taken up from a queue: behind the queue come new nodes. -/
structure Found (g : ι → List ι) (queue seen new : List ι) : Prop where
  nodup : new.Nodup
  unseen : ∀ x ∈ new, x ∉ seen
  sound : ∀ x ∈ new, ∃ a ∈ queue, Relation.TransGen (fun a b => b ∈ g a) a x
  closed : ∀ a ∈ queue ++ new, ∀ x ∈ g a, x ∈ seen ∨ x ∈ new

theorem order_found (h : order g n queue seen = some l) :
    ∃ new, l = queue ++ new ∧ Found g queue seen new := by
  induction n generalizing queue seen l with
  | zero =>
    cases queue with
    | nil =>
      obtain rfl := Option.some.inj h
      exact ⟨[], rfl, List.nodup_nil, by simp, by simp, by simp⟩
    | cons b queue => exact absurd h nofun
  | succ n ih =>
    cases queue with
    | nil =>
      obtain rfl := Option.some.inj h
      exact ⟨[], rfl, List.nodup_nil, by simp, by simp, by simp⟩
    | cons b queue =>
      obtain ⟨l', hl', rfl⟩ := Option.map_eq_some_iff.mp h
      obtain ⟨new, rfl, hfound⟩ := ih hl'
      -- the successors of `b` that were not seen go behind the queue, and what they lead to after
      refine ⟨fresh seen (g b) ++ new, by simp, ?_, ?_, ?_, ?_⟩
      · refine List.nodup_append.mpr ⟨nodup_fresh _ _, hfound.nodup, ?_⟩
        rintro x hx y hy rfl
        exact hfound.unseen x hy (List.mem_append_right _ hx)
      · intro x hx
        rcases List.mem_append.mp hx with hx | hx
        · exact (mem_fresh.mp hx).2
        · exact fun hseen => hfound.unseen x hx (List.mem_append_left _ hseen)
      · intro x hx
        rcases List.mem_append.mp hx with hx | hx
        · exact ⟨b, List.mem_cons_self, .single (mem_fresh.mp hx).1⟩
        · obtain ⟨a, ha, hpath⟩ := hfound.sound x hx
          rcases List.mem_append.mp ha with ha | ha
          · exact ⟨a, List.mem_cons_of_mem b ha, hpath⟩
          · exact ⟨b, List.mem_cons_self, .head (mem_fresh.mp ha).1 hpath⟩
      · intro a ha x hx
        by_cases hseen : x ∈ seen
        · exact .inl hseen
        · refine .inr ?_
          rw [List.cons_append, List.mem_cons, ← List.append_assoc] at ha
          rcases ha with rfl | ha
          · exact List.mem_append_left _ (mem_fresh.mpr ⟨hx, hseen⟩)
          · rcases hfound.closed a ha x hx with hx' | hx'
            · exact List.mem_append_left _ ((List.mem_append.mp hx').resolve_left hseen)
            · exact List.mem_append_right _ hx'

/-- **The search from one node**: behind it come the nodes that a path of at least one edge leads
    to, each once. -/
theorem order_start {start : ι} (h : order g n [start] [] = some l) :
    ∃ new, l = start :: new ∧ new.Nodup ∧
      ∀ x, x ∈ new ↔ Relation.TransGen (fun a b => b ∈ g a) start x := by
  obtain ⟨new, rfl, hfound⟩ := order_found h
  have hclosed : ∀ a ∈ start :: new, ∀ x ∈ g a, x ∈ new := fun a ha x hx =>
    (hfound.closed a ha x hx).resolve_left List.not_mem_nil
  refine ⟨new, rfl, hfound.nodup, fun x => ⟨fun hx => ?_, fun hpath => ?_⟩⟩
  · obtain ⟨a, ha, hpath⟩ := hfound.sound x hx
    exact List.mem_singleton.mp ha ▸ hpath
  · induction hpath with
    | single hedge => exact hclosed start List.mem_cons_self _ hedge
    | tail _ hedge ih => exact hclosed _ (List.mem_cons_of_mem start ih) _ hedge

/-! ### A search with a state -/

/-- A search that does something at each node; `visit` also returns the successors. -/
def run (visit : σ → ι → Except ε (σ × List ι)) (outOfFuel : ε) :
    ℕ → List ι → List ι → σ → Except ε σ
  | _, [], _, st => .ok st
  | 0, _ :: _, _, _ => .error outOfFuel
  | n + 1, b :: queue, seen, st =>
    match visit st b with
    | .error e => .error e
    | .ok (st', succs) =>
      run visit outOfFuel n (queue ++ fresh seen succs) (seen ++ fresh seen succs) st'

/-- The visits in a given order. -/
def visitAll (visit : σ → ι → Except ε (σ × List ι)) : List ι → σ → Except ε σ
  | [], st => .ok st
  | b :: l, st =>
    match visit st b with
    | .error e => .error e
    | .ok (st', _) => visitAll visit l st'

/-- **The search is a loop over the order**, if the visits return successors that lead to the same
    new nodes as the edges of the graph; `I` says when they do. -/
theorem run_eq_visitAll {visit : σ → ι → Except ε (σ × List ι)} {outOfFuel : ε}
    {I : List ι → σ → Prop}
    (hvisit : ∀ seen st b st' succs, I seen st → visit st b = .ok (st', succs) →
      fresh seen succs = fresh seen (g b) ∧ I (seen ++ fresh seen (g b)) st') {st : σ}
    (hI : I seen st) (horder : order g n queue seen = some l) :
    run visit outOfFuel n queue seen st = visitAll visit l st := by
  induction n generalizing queue seen l st with
  | zero =>
    cases queue with
    | nil =>
      obtain rfl := Option.some.inj horder
      rfl
    | cons b queue => exact absurd horder nofun
  | succ n ih =>
    cases queue with
    | nil =>
      obtain rfl := Option.some.inj horder
      rfl
    | cons b queue =>
      obtain ⟨l', hl', rfl⟩ := Option.map_eq_some_iff.mp horder
      rw [run, visitAll]
      cases hv : visit st b with
      | error e => rfl
      | ok r =>
        obtain ⟨hfresh, hI'⟩ := hvisit seen st b r.1 r.2 hI hv
        show run visit outOfFuel n (queue ++ fresh seen r.2) (seen ++ fresh seen r.2) r.1 = _
        rw [hfresh]
        exact ih hI' hl'

omit [DecidableEq ι] in
theorem visitAll_append (visit : σ → ι → Except ε (σ × List ι)) (l₁ l₂ : List ι) (st : σ) :
    visitAll visit (l₁ ++ l₂) st = (visitAll visit l₁ st).bind (visitAll visit l₂) := by
  induction l₁ generalizing st with
  | nil => rfl
  | cons b l₁ ih =>
    rw [List.cons_append, visitAll, visitAll]
    cases visit st b with
    | error e => rfl
    | ok r => exact ih r.1

end Worklist
