import Mathlib.Data.List.Chain

namespace Cfg

/-!
# Paths and dominance in a control-flow graph

Nodes are instructions.  A path starts at the entry and follows edges; `d` dominates `u` if
every path to `u` has been at `d` before.  An execution is a path with the contents of the
values at each step, where a value changes only behind its definition.

* `Dominates.mem_since` — a use's dominator that the definition dominates lies behind the last
  execution of the definition;
* `IsExec.val_eq_of_last` — so the value is the one the dominator last saw.
-/

variable {ι ν β : Type*}

/-- A graph of instructions with an entry. -/
structure Graph (ι : Type*) where
  entry : ι
  edge : ι → ι → Prop

variable {G : Graph ι}

/-- A list of nodes that starts at the entry and follows edges. -/
def Graph.IsPath (G : Graph ι) (p : List ι) : Prop := p.head? = some G.entry ∧ p.IsChain G.edge

/-- Every path to `u` has been at `d` before.  A node that no path leads to is dominated by all
    nodes, and only such a node by itself (`Dominates.ne_of_path`). -/
def Graph.Dominates (G : Graph ι) (d u : ι) : Prop := ∀ p, G.IsPath (p ++ [u]) → d ∈ p

theorem head?_append_cons (p r : List ι) (x : ι) : (p ++ x :: r).head? = (p ++ [x]).head? := by
  cases p <;> rfl

variable {p r : List ι} {x : ι}

/-- A path can be cut behind any of its nodes. -/
theorem Graph.IsPath.cut (h : G.IsPath (p ++ x :: r)) : G.IsPath (p ++ [x]) :=
  ⟨by rw [← head?_append_cons p r x, h.1], (List.isChain_split.mp h.2).1⟩

/-- Two paths that meet can be joined there. -/
theorem Graph.IsPath.join {q : List ι} (h : G.IsPath (p ++ [x])) (h' : G.IsPath (q ++ x :: r)) :
    G.IsPath (p ++ x :: r) :=
  ⟨by rw [head?_append_cons, h.1], List.isChain_split.mpr ⟨h.2, (List.isChain_split.mp h'.2).2⟩⟩

/-- Dominance composes. -/
theorem Graph.Dominates.trans {a b c : ι} (hab : G.Dominates a b) (hbc : G.Dominates b c) :
    G.Dominates a c := by
  intro p hp
  obtain ⟨q, r, rfl⟩ := List.append_of_mem (hbc p hp)
  rw [List.append_assoc, List.cons_append] at hp
  exact List.mem_append_left _ (hab q hp.cut)

/-- The start of a path up to its first visit of a node. -/
theorem Graph.IsPath.first (h : G.IsPath p) (hx : x ∈ p) : ∃ q, G.IsPath (q ++ [x]) ∧ x ∉ q := by
  obtain ⟨q, r, rfl, hq⟩ := List.eq_append_cons_of_mem hx
  exact ⟨q, h.cut, hq⟩

/-- No node on a path dominates itself. -/
theorem Graph.Dominates.ne_of_path {d u : ι} (h : G.Dominates d u) (hp : G.IsPath p) (hu : u ∈ p) :
    d ≠ u := by
  rintro rfl
  obtain ⟨q, hq, hd⟩ := hp.first hu
  exact hd (h q hq)

/-- **Dominators lie behind the definition.**  If `d` dominates `a` and `a` dominates `u`, then a
    path to `u` has been at `a` since it was last at `d`. -/
theorem Graph.Dominates.mem_since {d a u : ι} (hda : G.Dominates d a) (hau : G.Dominates a u)
    (hpath : G.IsPath (p ++ d :: (r ++ [u]))) : a ∈ r := by
  have hd : d ∈ p ++ d :: (r ++ [u]) := List.mem_append_right _ (List.mem_cons_self ..)
  have hne : a ≠ d := by
    rintro rfl
    exact hda.ne_of_path hpath hd rfl
  -- up to its first visit of `d` the path has not been at `a`
  obtain ⟨q, hq, hfirst⟩ := hpath.first hd
  have hnot : a ∉ q := by
    intro ha
    obtain ⟨q₁, q₂, rfl⟩ := List.append_of_mem ha
    rw [List.append_assoc, List.cons_append] at hq
    exact hfirst (List.mem_append_left _ (hda q₁ hq.cut))
  -- going on from there as after its last visit is a path to `u`
  have hshort : G.IsPath ((q ++ d :: r) ++ [u]) := by
    rw [List.append_assoc, List.cons_append]
    exact hq.join hpath
  rcases List.mem_append.mp (hau _ hshort) with ha | ha
  · exact absurd ha hnot
  · exact (List.mem_cons.mp ha).resolve_left hne

/-- The last member of a list with a property. -/
theorem exists_last {α : Type*} {P : α → Prop} {l : List α} (h : ∃ x ∈ l, P x) :
    ∃ q x r, l = q ++ x :: r ∧ P x ∧ ∀ y ∈ r, ¬ P y := by
  induction l with
  | nil =>
    obtain ⟨x, hx, -⟩ := h
    exact absurd hx (List.not_mem_nil)
  | cons a l ih =>
    by_cases hl : ∃ x ∈ l, P x
    · obtain ⟨q, x, r, rfl, hx, hr⟩ := ih hl
      exact ⟨a :: q, x, r, rfl, hx, hr⟩
    · obtain ⟨x, hx, hPx⟩ := h
      rcases List.mem_cons.mp hx with rfl | hx
      · exact ⟨[], x, l, rfl, hPx, fun y hy hPy => hl ⟨y, hy, hPy⟩⟩
      · exact absurd ⟨x, hx, hPx⟩ hl

/-! ### Straight-line code -/

/-- Instructions one behind the other. -/
def straightLine : Graph ℕ := ⟨0, fun a b => b = a + 1⟩

theorem straightLine_isPath_range (n : ℕ) : straightLine.IsPath (List.range (n + 1)) := by
  refine ⟨by rw [List.range_succ_eq_map]; rfl, ?_⟩
  induction n with
  | zero => exact List.isChain_singleton _
  | succ n ih =>
    rw [List.range_succ, List.range_succ, List.append_assoc, List.cons_append, List.nil_append,
      List.isChain_split]
    rw [List.range_succ] at ih
    exact ⟨ih, List.isChain_cons_cons.mpr ⟨rfl, List.isChain_singleton _⟩⟩

/-- There is only one path to an instruction. -/
theorem eq_range_of_straightLine {p : List ℕ} {u : ℕ} (h : straightLine.IsPath (p ++ [u])) :
    p = List.range u := by
  induction p using List.reverseRecOn generalizing u with
  | nil =>
    obtain rfl : u = 0 := Option.some.inj h.1
    rfl
  | append_singleton p x ih =>
    rw [List.append_assoc, List.cons_append] at h
    obtain rfl := ih h.cut
    obtain rfl : u = x + 1 := (List.isChain_cons_cons.mp (List.isChain_split.mp h.2).2).1
    rw [List.range_succ]

/-- Dominance in straight-line code is the order of the instructions. -/
theorem straightLine_dominates_iff (a b : ℕ) : straightLine.Dominates a b ↔ a < b := by
  constructor
  · intro h
    refine List.mem_range.mp (h (List.range b) ?_)
    rw [← List.range_succ]
    exact straightLine_isPath_range b
  · intro h p hp
    rw [eq_range_of_straightLine hp]
    exact List.mem_range.mpr h

/-! ### Executions -/

/-- An executed instruction, with the contents of the values in front of it. -/
structure Step (ι ν β : Type*) where
  node : ι
  val : ν → β

/-- A path along which values change only behind their definition. -/
structure IsExec (G : Graph ι) (defs : ν → Option ι) (es : List (Step ι ν β)) : Prop where
  path : G.IsPath (es.map Step.node)
  frame : es.IsChain fun a b => ∀ v, defs v ≠ some a.node → b.val v = a.val v

variable {defs : ν → Option ι}

variable {pre : List (Step ι ν β)} {s : Step ι ν β} {P : List (Step ι ν β) → Step ι ν β → Prop}

/-- An execution can be cut behind any of its steps. -/
theorem IsExec.cut {post : List (Step ι ν β)} (h : IsExec G defs (pre ++ s :: post)) :
    IsExec G defs (pre ++ [s]) where
  path := by
    have hp := h.path
    rw [List.map_append, List.map_cons] at hp
    rw [List.map_append]
    exact hp.cut
  frame := (List.isChain_split.mp h.frame).1

/-- A value stays the same while its definition is not executed. -/
theorem val_eq_of_no_def {v : ν} {t : Step ι ν β} {mid : List (Step ι ν β)}
    (h : (s :: (mid ++ [t])).IsChain fun a b => ∀ v, defs v ≠ some a.node → b.val v = a.val v)
    (hs : defs v ≠ some s.node) (hmid : ∀ x ∈ mid, defs v ≠ some x.node) : t.val v = s.val v := by
  induction mid generalizing s with
  | nil => exact (List.isChain_cons_cons.mp h).1 v hs
  | cons x mid ih =>
    rw [List.cons_append, List.isChain_cons_cons] at h
    rw [ih h.2 (hmid x (by simp)) fun y hy => hmid y (by simp [hy]), h.1 v hs]

/-- **Values at dominators.**  A step sees a value as the last execution of a dominator did that
    uses it, too. -/
theorem IsExec.val_eq_of_last {v : ν} {mid : List (Step ι ν β)} {t : Step ι ν β}
    (h : IsExec G defs (pre ++ s :: (mid ++ [t])))
    (hdef : ∀ d, defs v = some d → G.Dominates d s.node) (hdom : G.Dominates s.node t.node)
    (hlast : ∀ x ∈ mid, x.node ≠ s.node) : t.val v = s.val v := by
  refine val_eq_of_no_def (List.isChain_split.mp h.frame).2 ?_ ?_
  · intro hs
    exact (hdef _ hs).ne_of_path h.path (List.mem_map_of_mem (by simp)) rfl
  · intro x hx hxdef
    -- a definition in between would be followed by the dominator
    obtain ⟨m₁, m₂, rfl⟩ := List.append_of_mem hx
    have hpath : G.IsPath (((pre ++ s :: m₁).map Step.node) ++
        x.node :: (m₂.map Step.node ++ [t.node])) := by
      have hp := h.path
      simpa [List.map_append] using hp
    obtain ⟨y, hy, hynode⟩ := List.mem_map.mp ((hdef _ hxdef).mem_since hdom hpath)
    exact hlast y (List.mem_append_right _ (List.mem_cons_of_mem _ hy)) hynode

/-! ### Conditions along an execution -/

/-- Every step meets `P`, given the steps in front of it; `pre` are those in front of all. -/
def Along (P : List (Step ι ν β) → Step ι ν β → Prop) :
    List (Step ι ν β) → List (Step ι ν β) → Prop
  | _, [] => True
  | pre, s :: es => P pre s ∧ Along P (pre ++ [s]) es

/-- The condition at one step. -/
theorem Along.at {q r : List (Step ι ν β)} (h : Along P pre (q ++ s :: r)) : P (pre ++ q) s := by
  induction q generalizing pre with
  | nil => simpa using h.1
  | cons x q ih =>
    have := ih h.2
    rwa [List.append_assoc] at this

/-- The condition holds up to every step of a list it holds along. -/
theorem Along.cut {q r : List (Step ι ν β)} (h : Along P pre (q ++ s :: r)) :
    Along P pre (q ++ [s]) := by
  induction q generalizing pre with
  | nil => exact ⟨h.1, trivial⟩
  | cons x q ih => exact ⟨h.1, ih h.2⟩

/-- A weaker condition holds along the same steps. -/
theorem Along.mono {Q : List (Step ι ν β) → Step ι ν β → Prop} (hPQ : ∀ pre s, P pre s → Q pre s)
    {es : List (Step ι ν β)} (h : Along P pre es) : Along Q pre es := by
  induction es generalizing pre with
  | nil => trivial
  | cons s es ih => exact ⟨hPQ _ _ h.1, ih h.2⟩

instance Along.decidable {P : List (Step ι ν β) → Step ι ν β → Prop}
    [∀ pre s, Decidable (P pre s)] : (pre es : List (Step ι ν β)) → Decidable (Along P pre es)
  | _, [] => .isTrue trivial
  | pre, s :: es =>
    haveI := Along.decidable (P := P) (pre ++ [s]) es
    inferInstanceAs (Decidable (P pre s ∧ Along P (pre ++ [s]) es))

end Cfg
