import Mathlib.Data.Fintype.Card

namespace DepthFirst

/-!
# Recursive depth-first search

A search marks a node before it follows its edges, in order, and returns at once from a node that
is marked.  An edge leads to a node or to a leaf, which is collected.  The marks and the leaves
are shared by all calls.

* `visit` — the search, with fuel for the depth of the recursion;
* `Explores` — **what a call does**: the nodes it marks are finished when it returns;
* `visit_explores` — with one unit of fuel for each node that is not marked yet the search ends;
* `visit_eq_reaches` — from scratch it sees what can be reached, and nothing else.
-/

variable {ι β : Type*}

/-- What a search has seen. -/
structure Seen (ι β : Type*) where
  nodes : List ι
  leaves : List β

/-- The target of an edge has been seen. -/
def Seen.Has (s : Seen ι β) : ι ⊕ β → Prop
  | .inl q => q ∈ s.nodes
  | .inr v => v ∈ s.leaves

/-- The targets that a path from `p` leads to. -/
inductive Reaches (g : ι → List (ι ⊕ β)) (p : ι) : ι ⊕ β → Prop
  | start : Reaches g p (.inl p)
  | edge {q : ι} {e : ι ⊕ β} : Reaches g p (.inl q) → e ∈ g q → Reaches g p e

/-- A path that starts with an edge. -/
theorem Reaches.cons {g : ι → List (ι ⊕ β)} {p q : ι} (hq : .inl q ∈ g p) {e : ι ⊕ β}
    (h : Reaches g q e) : Reaches g p e := by
  induction h with
  | start => exact .edge .start hq
  | edge _ he ih => exact .edge ih he

/-- **What a part of a search does**: marks and leaves stay, and the nodes it marks have all their
    edges followed. -/
structure Explores (g : ι → List (ι ⊕ β)) (s s' : Seen ι β) : Prop where
  has : ∀ e, s.Has e → s'.Has e
  nodup : s.nodes.Nodup → s'.nodes.Nodup
  length : s.nodes.length ≤ s'.nodes.length
  closed : ∀ q ∈ s'.nodes, q ∉ s.nodes → ∀ e ∈ g q, s'.Has e

theorem Explores.refl {g : ι → List (ι ⊕ β)} (s : Seen ι β) : Explores g s s :=
  ⟨fun _ => id, id, le_rfl, fun _ hq hnot => absurd hq hnot⟩

theorem Explores.trans {g : ι → List (ι ⊕ β)} {s₁ s₂ s₃ : Seen ι β} (h : Explores g s₁ s₂)
    (h' : Explores g s₂ s₃) : Explores g s₁ s₃ where
  has e he := h'.has e (h.has e he)
  nodup hn := h'.nodup (h.nodup hn)
  length := le_trans h.length h'.length
  closed q hq hnot e he := by
    by_cases hq' : q ∈ s₂.nodes
    · exact h'.has e (h.closed q hq' hnot e he)
    · exact h'.closed q hq hq' e he

section Search

variable [DecidableEq ι] [DecidableEq β] (g : ι → List (ι ⊕ β))

/-- The search from a node. -/
def visit : ℕ → ι → Seen ι β → Option (Seen ι β)
  | 0, _, _ => none
  | fuel + 1, p, s =>
    if p ∈ s.nodes then some s
    else
      (g p).foldlM
        (fun s e =>
          match e with
          | .inl q => visit fuel q s
          | .inr v => some { s with leaves := s.leaves.insert v })
        { s with nodes := p :: s.nodes }

/-- One edge of a node. -/
def follow (fuel : ℕ) (s : Seen ι β) : ι ⊕ β → Option (Seen ι β)
  | .inl q => visit g fuel q s
  | .inr v => some { s with leaves := s.leaves.insert v }

theorem visit_succ (fuel : ℕ) (p : ι) (s : Seen ι β) :
    visit g (fuel + 1) p s = if p ∈ s.nodes then some s
      else (g p).foldlM (follow g fuel) { s with nodes := p :: s.nodes } := by
  have hstep : (fun (s : Seen ι β) (e : ι ⊕ β) =>
      match e with
      | .inl q => visit g fuel q s
      | .inr v => some { s with leaves := s.leaves.insert v }) = follow g fuel := by
    funext s e
    cases e <;> rfl
  rw [visit, hstep]

/-! ### The search ends -/

variable {g}

/-- Following a list of edges, if following one of them works from wherever the search is. -/
theorem foldlM_follow {fuel n : ℕ}
    (hvisit : ∀ q (s : Seen ι β), s.nodes.Nodup → n < fuel + s.nodes.length →
      ∃ s', visit g fuel q s = some s' ∧ Explores g s s' ∧ q ∈ s'.nodes) :
    ∀ (es : List (ι ⊕ β)) (s : Seen ι β), s.nodes.Nodup → n < fuel + s.nodes.length →
      ∃ s', es.foldlM (follow g fuel) s = some s' ∧ Explores g s s' ∧ ∀ e ∈ es, s'.Has e
  | [], s, _, _ => ⟨s, rfl, .refl s, fun _ he => absurd he List.not_mem_nil⟩
  | e :: es, s, hs, hn => by
    obtain ⟨t, ht, hst, he⟩ : ∃ t, follow g fuel s e = some t ∧ Explores g s t ∧ t.Has e := by
      cases e with
      | inl q => exact hvisit q s hs hn
      | inr v =>
        refine ⟨_, rfl, ⟨fun e he => ?_, id, le_rfl, fun q hq hnot => absurd hq hnot⟩,
          List.mem_insert_self⟩
        cases e with
        | inl q => exact he
        | inr w => exact List.mem_insert_of_mem he
    have hlen := hst.length
    obtain ⟨s', hs', hts', hes⟩ := foldlM_follow hvisit es t (hst.nodup hs) (by omega)
    refine ⟨s', ?_, hst.trans hts', ?_⟩
    · rw [List.foldlM_cons, ht]
      exact hs'
    · intro e' he'
      rcases List.mem_cons.mp he' with rfl | he'
      · exact hts'.has _ he
      · exact hes e' he'

/-- **The search ends** if there is fuel for each node that is not marked. -/
theorem visit_explores [Fintype ι] : ∀ (fuel : ℕ) (p : ι) (s : Seen ι β), s.nodes.Nodup →
    Fintype.card ι < fuel + s.nodes.length →
    ∃ s', visit g fuel p s = some s' ∧ Explores g s s' ∧ p ∈ s'.nodes
  | 0, p, s, hs, hfuel => absurd hs.length_le_card (by omega)
  | fuel + 1, p, s, hs, hfuel => by
    rw [visit_succ]
    by_cases hp : p ∈ s.nodes
    · exact ⟨s, if_pos hp, .refl s, hp⟩
    rw [if_neg hp]
    obtain ⟨s', hs', hexp, hedges⟩ := foldlM_follow (visit_explores fuel) (g p)
      { s with nodes := p :: s.nodes } (List.nodup_cons.mpr ⟨hp, hs⟩)
      (by rw [List.length_cons]; omega)
    have hps : p ∈ s'.nodes := hexp.has (.inl p) List.mem_cons_self
    refine ⟨s', hs', ⟨fun e he => ?_, fun _ => hexp.nodup (List.nodup_cons.mpr ⟨hp, hs⟩), ?_, ?_⟩,
      hps⟩
    · cases e with
      | inl q => exact hexp.has (.inl q) (List.mem_cons_of_mem _ he)
      | inr v => exact hexp.has (.inr v) he
    · exact le_trans (Nat.le_succ _) hexp.length
    · -- the node itself is finished by the loop, the others by the calls in it
      intro q hq hnot e he
      by_cases hqp : q = p
      · subst hqp
        exact hedges e he
      · refine hexp.closed q hq (fun hmem => ?_) e he
        rcases List.mem_cons.mp hmem with h | h
        · exact hqp h
        · exact hnot h

/-! ### What it sees -/

/-- A search sees what can be reached, besides what was there. -/
theorem reaches_of_visit : ∀ {fuel : ℕ} {p : ι} {s s' : Seen ι β}, visit g fuel p s = some s' →
    ∀ e, s'.Has e → s.Has e ∨ Reaches g p e
  | 0, _, _, _, h => absurd h (by simp [visit])
  | fuel + 1, p, s, s', h => by
    rw [visit_succ] at h
    split at h
    next => obtain rfl := Option.some.inj h; exact fun e he => .inl he
    next hp =>
      -- along the loop, what is new is `p` or reached through an edge of `p`
      have hloop : ∀ (es : List (ι ⊕ β)) (t : Seen ι β), (∀ e ∈ es, e ∈ g p) →
          es.foldlM (follow g fuel) t = some s' → ∀ e, s'.Has e → t.Has e ∨ Reaches g p e := by
        intro es
        induction es with
        | nil =>
          intro t _ ht e he
          obtain rfl := Option.some.inj ht
          exact .inl he
        | cons e₀ es ih =>
          intro t hes ht e he
          rw [List.foldlM_cons] at ht
          obtain ⟨u, hu, ht⟩ := Option.bind_eq_some_iff.mp ht
          have he₀ := hes e₀ List.mem_cons_self
          rcases ih u (fun e' he' => hes e' (List.mem_cons_of_mem _ he')) ht e he with hue | hr
          · cases e₀ with
            | inl q => exact (reaches_of_visit hu e hue).imp_right (Reaches.cons he₀)
            | inr v =>
              obtain rfl := Option.some.inj hu
              cases e with
              | inl q => exact .inl hue
              | inr w =>
                rcases List.mem_insert_iff.mp hue with rfl | hw
                · exact .inr (.edge .start he₀)
                · exact .inl hw
          · exact .inr hr
      intro e he
      rcases hloop (g p) _ (fun _ => id) h e he with hs | hr
      · cases e with
        | inl q =>
          rcases List.mem_cons.mp hs with rfl | hq
          · exact .inr .start
          · exact .inl hq
        | inr v => exact .inl hs
      · exact .inr hr

/-- **From scratch** a search sees exactly what can be reached. -/
theorem visit_eq_reaches [Fintype ι] (p : ι) {fuel : ℕ} (hfuel : Fintype.card ι < fuel) :
    ∃ s', visit g fuel p ⟨[], []⟩ = some s' ∧ ∀ e, s'.Has e ↔ Reaches g p e := by
  obtain ⟨s', hs', hexp, hp⟩ := visit_explores (g := g) fuel p ⟨[], []⟩ List.nodup_nil hfuel
  refine ⟨s', hs', fun e => ⟨fun he => ?_, fun he => ?_⟩⟩
  · rcases reaches_of_visit hs' e he with h | h
    · cases e <;> exact absurd h List.not_mem_nil
    · exact h
  · induction he with
    | start => exact hp
    | edge _ he ih => exact hexp.closed _ ih List.not_mem_nil _ he

end Search

end DepthFirst
