import Firestarter.Lib.DepthFirst

namespace Firestarter.Ltckpt.AllocaSkip

open DepthFirst

/-!
# Stores to allocas (`LtCkptPassBasic::storeToBeInstrumented`)

With `-ltckpt_skip_alloca` a store gets no hook if its pointer comes from allocas only.  The pass
takes the offsets off the pointer operand; if a PHI node is left, it collects the values that flow
into it, by a recursion over the PHI nodes with two sets that all calls share.

* `getValuesForPhiNode`, `storeToBeInstrumented` — the two functions, with fuel for their loops;
* `Flows` — **what can flow into a pointer**, through PHI nodes, offsets and casts;
* `getValuesForPhiNode_eq_visit` — the recursion is a depth-first search;
* `skipped_store_comes_from_allocas` — the traversal ends, and a store is skipped exactly if
  allocas flow in and nothing else.
-/

/-! ### Pointers -/

/-- Pointers as the pass looks at them: PHI nodes of the function, `getelementptr` instructions
    (`inst`) or constant expressions, casts, global aliases, allocas, and everything else.  An
    expression is finite, so that cycles go through PHI nodes, as they do in reachable code.
    Unreachable blocks are left out: there a `getelementptr` may refer to itself, and the loop over
    `go_on` does not end. -/
inductive Value (φ : Type)
  | phi (P : φ)
  | gep (inst inBounds : Bool) (ptr : Value φ)
  | cast (ptr : Value φ)
  | globalAlias (mayBeOverridden : Bool) (aliasee : Value φ)
  | alloca (n : ℕ)
  | other (n : ℕ)
deriving DecidableEq

variable {φ : Type}

/-- `Value::stripInBoundsOffsets` of LLVM. -/
def Value.stripInBoundsOffsets : Value φ → Value φ
  | gep _ true ptr => ptr.stripInBoundsOffsets
  | cast ptr => ptr.stripInBoundsOffsets
  | globalAlias false aliasee => aliasee.stripInBoundsOffsets
  | V => V

/-- `isa<AllocaInst>`. -/
def Value.isAlloca : Value φ → Bool
  | alloca _ => true
  | _ => false

/-- The depth of an expression. -/
def Value.depth : Value φ → ℕ
  | gep _ _ ptr => ptr.depth + 1
  | cast ptr => ptr.depth + 1
  | globalAlias _ aliasee => aliasee.depth + 1
  | _ => 0

/-- What `storeToBeInstrumented` is called for. -/
inductive Inst (φ : Type)
  | store (ptr : Value φ)
  | other

/-! ### The traversal -/

section Traversal

variable [DecidableEq φ] (incoming : φ → List (Value φ))

/-- `getValuesForPhiNode`, with the sets `nodes` and `values`. -/
def getValuesForPhiNode : ℕ → φ → Seen φ (Value φ) → Option (Seen φ (Value φ))
  | 0, _, _ => none
  | fuel + 1, P, s =>
    if P ∈ s.nodes then some s
    else
      (incoming P).foldlM
        (fun s V =>
          match V.stripInBoundsOffsets with
          | .phi Q => getValuesForPhiNode fuel Q s
          | W => some { s with leaves := s.leaves.insert W })
        { s with nodes := P :: s.nodes }

/-- The loop over `go_on`: all offsets of instructions are taken off. -/
def pointerBase : ℕ → Value φ → Option (Value φ)
  | 0, _ => none
  | fuel + 1, V =>
    match V.stripInBoundsOffsets with
    | .gep true _ ptr => pointerBase fuel ptr
    | W => some W

/-- `storeToBeInstrumented` without DSA; `skipAllocas` is `-ltckpt_skip_alloca`. -/
def storeToBeInstrumented (skipAllocas : Bool) (fuel : ℕ) : Inst φ → Option Bool
  | .other => some true
  | .store ptr => do
    match ← pointerBase fuel ptr with
    | .phi P => do
      let s ← getValuesForPhiNode incoming fuel P ⟨[], []⟩
      return !(s.leaves.all Value.isAlloca && skipAllocas)
    | V => return !(skipAllocas && V.isAlloca)

end Traversal

/-! ### What flows into a pointer -/

/-- The values that flow come from somewhere: they are no PHI nodes, casts or offsets.  Other than
    in-bounds offsets count as values of their own unless `anyOffset` is set. -/
def Value.IsSource (anyOffset : Bool) : Value φ → Prop
  | phi _ => False
  | gep _ inBounds _ => (inBounds || anyOffset) = false
  | cast _ => False
  | globalAlias mayBeOverridden _ => mayBeOverridden = true
  | alloca _ => True
  | other _ => True

/-- `x` can flow into a pointer through PHI nodes, casts and in-bounds offsets, or any offsets. -/
inductive Flows (anyOffset : Bool) (incoming : φ → List (Value φ)) (x : Value φ) : Value φ → Prop
  | source : x.IsSource anyOffset → Flows anyOffset incoming x x
  | phi {P : φ} {V : Value φ} : V ∈ incoming P → Flows anyOffset incoming x V →
      Flows anyOffset incoming x (.phi P)
  | gep {inst inBounds : Bool} {ptr : Value φ} : (inBounds || anyOffset) = true →
      Flows anyOffset incoming x ptr → Flows anyOffset incoming x (.gep inst inBounds ptr)
  | cast {ptr : Value φ} : Flows anyOffset incoming x ptr → Flows anyOffset incoming x (.cast ptr)
  | globalAlias {aliasee : Value φ} : Flows anyOffset incoming x aliasee →
      Flows anyOffset incoming x (.globalAlias false aliasee)

variable {incoming : φ → List (Value φ)} {x : Value φ}

/-- What is stripped changes nothing about what flows in. -/
theorem flows_strip_iff (anyOffset : Bool) (V : Value φ) :
    Flows anyOffset incoming x V.stripInBoundsOffsets ↔ Flows anyOffset incoming x V := by
  fun_induction Value.stripInBoundsOffsets V with
  | case1 inst ptr ih =>
    rw [ih]
    refine ⟨.gep rfl, fun h => ?_⟩
    cases h with
    | source hx => exact absurd hx (by simp [Value.IsSource])
    | gep _ h => exact h
  | case2 ptr ih =>
    rw [ih]
    refine ⟨.cast, fun h => ?_⟩
    cases h with
    | source hx => exact absurd hx id
    | cast h => exact h
  | case3 aliasee ih =>
    rw [ih]
    refine ⟨.globalAlias, fun h => ?_⟩
    cases h with
    | source hx => exact absurd hx (by simp [Value.IsSource])
    | globalAlias h => exact h
  | case4 => exact Iff.rfl

/-- A stripped value is a PHI node or a source. -/
theorem strip_phi_or_source (V : Value φ) :
    (∃ P, V.stripInBoundsOffsets = .phi P) ∨ V.stripInBoundsOffsets.IsSource false := by
  fun_induction Value.stripInBoundsOffsets V with
  | case1 inst ptr ih => exact ih
  | case2 ptr ih => exact ih
  | case3 aliasee ih => exact ih
  | case4 V hgep hcast halias =>
    cases V with
    | phi P => exact .inl ⟨P, rfl⟩
    | gep inst inBounds ptr =>
      cases inBounds with
      | true => exact absurd rfl (hgep inst ptr)
      | false => exact .inr rfl
    | cast ptr => exact absurd rfl (hcast ptr)
    | globalAlias overridable aliasee =>
      cases overridable with
      | true => exact .inr rfl
      | false => exact absurd rfl (halias aliasee)
    | alloca n => exact .inr trivial
    | other n => exact .inr trivial

variable {V : Value φ}

theorem strip_of_source (h : V.IsSource false) : V.stripInBoundsOffsets = V := by
  cases V with
  | gep inst inBounds ptr =>
    cases inBounds with
    | true => exact absurd h (by simp [Value.IsSource])
    | false => rfl
  | cast ptr => exact absurd h id
  | globalAlias overridable aliasee =>
    cases overridable with
    | true => rfl
    | false => exact absurd h (by simp [Value.IsSource])
  | phi P => rfl
  | alloca n => rfl
  | other n => rfl

/-- What flows is a source. -/
theorem Flows.isSource {anyOffset : Bool} (h : Flows anyOffset incoming x V) :
    x.IsSource anyOffset := by
  induction h with
  | source hx => exact hx
  | phi _ _ ih => exact ih
  | gep _ _ ih => exact ih
  | cast _ ih => exact ih
  | globalAlias _ ih => exact ih

/-- Only itself flows into a source. -/
theorem flows_source_iff {anyOffset : Bool} (hV : V.IsSource anyOffset) :
    Flows anyOffset incoming x V ↔ x = V := by
  constructor
  · intro h
    cases h with
    | source => rfl
    | phi => exact absurd hV id
    | gep hoff => exact absurd (hoff.symm.trans hV) (by decide)
    | cast => exact absurd hV id
    | globalAlias => exact absurd hV (by simp [Value.IsSource])
  · rintro rfl
    exact .source hV

/-! ### PHI nodes -/

/-- Where an incoming value leads the recursion: to another PHI node, or into the set. -/
def Value.target : Value φ → φ ⊕ Value φ
  | phi Q => .inl Q
  | W => .inr W

/-- The edges of the PHI nodes. -/
def phiEdges (incoming : φ → List (Value φ)) (P : φ) : List (φ ⊕ Value φ) :=
  (incoming P).map fun V => V.stripInBoundsOffsets.target

theorem target_of_source (h : V.IsSource false) : V.target = .inr V := by
  cases V with
  | phi P => exact absurd h id
  | _ => rfl

/-- **The recursion is a depth-first search** of the PHI nodes. -/
theorem getValuesForPhiNode_eq_visit [DecidableEq φ] (incoming : φ → List (Value φ)) :
    ∀ (fuel : ℕ) (P : φ) (s : Seen φ (Value φ)),
      getValuesForPhiNode incoming fuel P s = visit (phiEdges incoming) fuel P s
  | 0, _, _ => rfl
  | fuel + 1, P, s => by
    rw [getValuesForPhiNode, visit_succ, phiEdges, List.foldlM_map]
    -- one incoming value
    have hstep : (fun (s : Seen φ (Value φ)) (V : Value φ) =>
        match V.stripInBoundsOffsets with
        | .phi Q => getValuesForPhiNode incoming fuel Q s
        | W => some { s with leaves := s.leaves.insert W }) =
        fun s V => follow (phiEdges incoming) fuel s V.stripInBoundsOffsets.target := by
      funext s V
      cases V.stripInBoundsOffsets with
      | phi Q => exact getValuesForPhiNode_eq_visit incoming fuel Q s
      | _ => rfl
    rw [hstep]

/-- What flows into a value reaches the search from the PHI node that the value is when it is
    stripped, or is the stripped value. -/
theorem reaches_or_eq_of_flows (h : Flows false incoming x V) :
    (∃ Q, V.stripInBoundsOffsets = .phi Q ∧ Reaches (phiEdges incoming) Q (.inr x)) ∨
      V.stripInBoundsOffsets = x := by
  induction h with
  | source hx => exact .inr (strip_of_source hx)
  | @phi P V hV h ih =>
    refine .inl ⟨P, rfl, ?_⟩
    have hedge : V.stripInBoundsOffsets.target ∈ phiEdges incoming P := List.mem_map_of_mem hV
    rcases ih with ⟨Q, hQ, hreach⟩ | hx
    · rw [hQ] at hedge
      exact hreach.cons hedge
    · rw [hx, target_of_source h.isSource] at hedge
      exact .edge .start hedge
  | @gep inst inBounds ptr hoff h ih =>
    obtain rfl : inBounds = true := by simpa using hoff
    exact ih
  | cast h ih => exact ih
  | globalAlias h ih => exact ih

/-- What the search from a PHI node finds flows into it. -/
theorem flows_of_reaches {P : φ} {e : φ ⊕ Value φ} (h : Reaches (phiEdges incoming) P e) :
    (∀ Q, e = .inl Q → ∀ y, Flows false incoming y (.phi Q) → Flows false incoming y (.phi P)) ∧
      ∀ W, e = .inr W → Flows false incoming W (.phi P) := by
  induction h with
  | start =>
    refine ⟨fun Q hQ y hy => ?_, fun W hW => by cases hW⟩
    cases hQ
    exact hy
  | @edge q e _ he ih =>
    obtain ⟨V, hV, rfl⟩ := List.mem_map.mp he
    have hstep : ∀ y, Flows false incoming y V.stripInBoundsOffsets →
        Flows false incoming y (.phi P) :=
      fun y hy => ih.1 q rfl y (.phi hV ((flows_strip_iff false V).mp hy))
    rcases strip_phi_or_source V with ⟨Q, hQ⟩ | hsrc
    · rw [hQ] at hstep ⊢
      refine ⟨fun Q' hQ' => ?_, fun W hW => by cases hW⟩
      cases hQ'
      exact hstep
    · rw [target_of_source hsrc]
      refine ⟨fun Q hQ => (by cases hQ), fun W hW => ?_⟩
      cases hW
      exact hstep _ (.source hsrc)

/-- **The values of a PHI node** are what the search finds. -/
theorem flows_phi_iff (P : φ) :
    Flows false incoming x (.phi P) ↔ Reaches (phiEdges incoming) P (.inr x) := by
  refine ⟨fun h => ?_, fun h => (flows_of_reaches h).2 x rfl⟩
  rcases reaches_or_eq_of_flows h with ⟨Q, hQ, hreach⟩ | hx
  · cases hQ
    exact hreach
  · -- a PHI node is not a source
    have hsrc := h.isSource
    rw [← hx] at hsrc
    exact absurd hsrc id

/-! ### Stores -/

theorem depth_strip_le (V : Value φ) : V.stripInBoundsOffsets.depth ≤ V.depth := by
  fun_induction Value.stripInBoundsOffsets V with
  | case1 inst ptr ih => exact le_trans ih (Nat.le_succ _)
  | case2 ptr ih => exact le_trans ih (Nat.le_succ _)
  | case3 aliasee ih => exact le_trans ih (Nat.le_succ _)
  | case4 => exact le_rfl

/-- **The loop over the offsets ends** with a PHI node or a source, and what flows into the pointer
    through any offsets flows into that. -/
theorem pointerBase_spec (incoming : φ → List (Value φ)) : ∀ {fuel : ℕ} {V : Value φ},
    V.depth < fuel → ∃ B, pointerBase fuel V = some B ∧
      ((∃ P, B = .phi P) ∨ B.IsSource false) ∧
      ∀ x, Flows true incoming x V → Flows true incoming x B
  | 0, _, h => absurd h (Nat.not_lt_zero _)
  | fuel + 1, V, h => by
    have hdepth := depth_strip_le V
    have hsrc := strip_phi_or_source V
    have hflow : ∀ x, Flows true incoming x V → Flows true incoming x V.stripInBoundsOffsets :=
      fun x => (flows_strip_iff true V).mpr
    rw [pointerBase]
    generalize V.stripInBoundsOffsets = W at hdepth hsrc hflow
    split
    next inBounds ptr =>
      obtain ⟨B, hB, hend, hin⟩ := pointerBase_spec incoming
        (show ptr.depth < fuel by rw [Value.depth] at hdepth; omega)
      refine ⟨B, hB, hend, fun x hx => hin x ?_⟩
      cases hflow x hx with
      | source hx => exact absurd hx (by simp [Value.IsSource])
      | gep _ h => exact h
    next => exact ⟨W, rfl, hsrc, hflow⟩

/-- Where only allocas flow in through in-bounds offsets, nothing comes through other offsets. -/
theorem Flows.inBounds (h : Flows true incoming x V)
    (hall : ∀ y, Flows false incoming y V → y.isAlloca = true) : Flows false incoming x V := by
  induction h with
  | source hx =>
    refine .source ?_
    cases x with
    | gep inst inBounds ptr => exact absurd hx (by simp [Value.IsSource])
    | _ => exact hx
  | phi hV _ ih => exact .phi hV (ih fun y hy => hall y (.phi hV hy))
  | @gep inst inBounds ptr hoff _ ih =>
    cases inBounds with
    | true => exact .gep rfl (ih fun y hy => hall y (.gep rfl hy))
    | false => exact absurd (hall _ (.source rfl)) Bool.false_ne_true
  | cast _ ih => exact .cast (ih fun y hy => hall y (.cast hy))
  | globalAlias _ ih => exact .globalAlias (ih fun y hy => hall y (.globalAlias hy))

section Main

variable [DecidableEq φ] [Fintype φ] (incoming : φ → List (Value φ))

/-- The sets are complete: the search from a PHI node ends with the values that flow into it. -/
theorem getValuesForPhiNode_spec (P : φ) {fuel : ℕ} (hfuel : Fintype.card φ < fuel) :
    ∃ s, getValuesForPhiNode incoming fuel P ⟨[], []⟩ = some s ∧
      ∀ x, x ∈ s.leaves ↔ Flows false incoming x (.phi P) := by
  obtain ⟨s, hs, hseen⟩ := visit_eq_reaches (g := phiEdges incoming) P hfuel
  refine ⟨s, (getValuesForPhiNode_eq_visit incoming fuel P _).trans hs, fun x => ?_⟩
  exact (hseen (.inr x)).trans (flows_phi_iff P).symm

/-- The decision for a store, by the base of its pointer. -/
theorem storeToBeInstrumented_spec {ptr B : Value φ} {fuel : ℕ} (hfuel : Fintype.card φ < fuel)
    (hB : pointerBase fuel ptr = some B) (hend : (∃ P, B = .phi P) ∨ B.IsSource false) :
    ∃ b, storeToBeInstrumented incoming true fuel (.store ptr) = some b ∧
      (b = false ↔ ∀ x, Flows false incoming x B → x.isAlloca = true) := by
  rcases hend with ⟨P, rfl⟩ | hsrc
  · obtain ⟨s, hs, hleaves⟩ := getValuesForPhiNode_spec incoming P hfuel
    refine ⟨!(s.leaves.all Value.isAlloca), ?_, ?_⟩
    · simp only [storeToBeInstrumented, hB, Option.bind_eq_bind, Option.bind_some, hs,
        Bool.and_true]
      rfl
    · rw [Bool.not_eq_false', List.all_eq_true]
      exact forall_congr' fun x => by rw [hleaves x]
  · refine ⟨!B.isAlloca, ?_, ?_⟩
    · simp only [storeToBeInstrumented, hB, Option.bind_eq_bind, Option.bind_some]
      cases B with
      | phi P => exact absurd hsrc id
      | _ => rfl
    · rw [Bool.not_eq_false']
      constructor
      · intro h x hx
        rw [(flows_source_iff hsrc).mp hx]
        exact h
      · exact fun h => h B (.source hsrc)

/-- **Skipped stores hit allocas.**  With `-ltckpt_skip_alloca` the traversal comes to its end for
    every pointer and every graph of PHI nodes.  It decides to skip the store exactly if every
    value that flows into the base of the pointer through PHI nodes and in-bounds offsets is an
    alloca; and then allocas are all that flows into the pointer, also through other offsets. -/
theorem skipped_store_comes_from_allocas (ptr : Value φ) {fuel : ℕ}
    (hfuel : ptr.depth + Fintype.card φ < fuel) :
    ∃ B b, pointerBase fuel ptr = some B ∧
      storeToBeInstrumented incoming true fuel (.store ptr) = some b ∧
      (b = false ↔ ∀ x, Flows false incoming x B → x.isAlloca = true) ∧
      (b = false → ∀ x, Flows true incoming x ptr → x.isAlloca = true) := by
  obtain ⟨B, hB, hend, hin⟩ :=
    pointerBase_spec incoming (show ptr.depth < fuel by omega)
  obtain ⟨b, hb, hiff⟩ :=
    storeToBeInstrumented_spec incoming (show Fintype.card φ < fuel by omega) hB hend
  refine ⟨B, b, hB, hb, hiff, fun hskip x hx => ?_⟩
  have hall := hiff.mp hskip
  exact hall x ((hin x hx).inBounds hall)

end Main

/-- Two PHI nodes that refer to each other, with an alloca each. -/
def twoPhis : Bool → List (Value Bool)
  | false => [.alloca 0, .gep true true (.phi true)]
  | true => [.cast (.phi false), .alloca 1]

/-- A store through one of them is skipped. -/
theorem skipped_store_comes_from_allocas_twoPhis :
    storeToBeInstrumented twoPhis true 4 (.store (.gep true false (.phi false))) = some false ∧
      ∀ x, Flows true twoPhis x (.gep true false (.phi false)) → x.isAlloca = true := by
  have hrun : storeToBeInstrumented twoPhis true 4 (.store (.gep true false (.phi false))) =
      some false := by decide
  obtain ⟨B, b, -, hb, -, hall⟩ := skipped_store_comes_from_allocas twoPhis
    (.gep true false (.phi false)) (show _ < 4 by decide)
  exact ⟨hrun, hall (Option.some.inj (hb.symm.trans hrun))⟩

end Firestarter.Ltckpt.AllocaSkip
