import Mathlib.Data.List.Dedup
import Mathlib.Logic.Function.Basic
import Firestarter.Lib.Cfg
import Firestarter.Ltckpt.Rollback
import Firestarter.Ltckpt.StoreCover

namespace Firestarter.Ltckpt

open Cfg

/-!
# Stores whose hook is dropped

`LtCkptPassBasic` leaves out the hook of a store that another store to the same pointer
dominates (`eliminateDoubleStores`), and replaces the hooks of stores to one object by one call
for a range in front of the store that dominates the others (`aggregateStores`).

* `rangeHook_dominator`: what the chains of `ObjectStoreDomationMap` look like.
* `granule_logged`: along safe executions the granule of every instrumented store is in the log.
* `droppedStore_logged`: and so are all bytes of a store whose hook was dropped.
-/

/-! ### Functions -/

/-- A store as the pass sees it: its pointer operand without casts (`stripPointerCasts`), the
    object and the constant offset that the walk of `aggregateStores` ends with, and the size of
    the stored value. -/
structure StoreOp where
  stripped : ℕ
  base : ℕ
  offset : ℤ
  width : ℕ

/-- What the pass distinguishes: stores, `MemIntrinsic`s with destination and length, calls that
    reach the top-of-the-loop hook, and the rest. -/
inductive PassInst
  | store (s : StoreOp)
  | memIntrinsic (dest length : ℕ)
  | topOfTheLoop
  | other

/-- The users of a value that `recusercheck` looks at: stores, and casts or aliases with the
    users of their own. -/
inductive Users (ι : Type*)
  | nil
  | store (ss : ι) (rest : Users ι)
  | cast (result : ℕ) (users rest : Users ι)

/-- A function in SSA form.  Values are numbers; `defs` is `none` for arguments, constants and
    globals. -/
structure PassFunction (ι : Type*) where
  graph : Graph ι
  instAt : ι → PassInst
  users : ℕ → Users ι
  stripPointerCasts : ℕ → ℕ
  defs : ℕ → Option ι
  /-- definitions dominate uses -/
  ssa : ∀ n s v d, instAt n = .store s → (v = s.stripped ∨ v = s.base) → defs v = some d →
    graph.Dominates d n

/-- LLVM's dominator tree of a function. -/
structure DominatorTree {ι : Type*} (G : Graph ι) where
  dominates : ι → ι → Bool
  dominates_iff : ∀ a b, dominates a b = true ↔ G.Dominates a b

/-- `LLVM_HAS_DSA` and `-ltckpt_aggregate_struct_stores`. -/
structure ElimOptions where
  hasDSA : Bool
  aggregateStructStores : Bool

section Pass

variable {ι : Type*} (F : PassFunction ι) (DT : DominatorTree F.graph)
  (o : ElimOptions)

/-- `dyn_cast<StoreInst>`. -/
def PassFunction.storeAt (n : ι) : Option StoreOp :=
  match F.instAt n with
  | .store s => some s
  | _ => none

/-! ### Double stores -/

/-- `recusercheck`: the stores it puts into `ds`. -/
def recusercheck (S : ι) (V : ℕ) : Users ι → List ι
  | .nil => []
  | .store ss rest =>
    if DT.dominates S ss ∧ (F.storeAt ss).map StoreOp.stripped = some (F.stripPointerCasts V) then
      ss :: recusercheck S V rest
    else recusercheck S V rest
  -- any `CastInst`, also one that changes the value
  | .cast W users rest => recusercheck S W users ++ recusercheck S V rest

/-- The body of the loop of `eliminateDoubleStores`. -/
def doubleStores (S : ι) : List ι :=
  match F.storeAt S with
  | some s => recusercheck F DT S s.stripped (F.users s.stripped)
  | none => []

/-! ### Aggregated stores -/

/-- `DominationChainTy`: stores with their offsets, the leader first. -/
abbrev DominationChain (ι : Type*) := List (ι × ℤ)

/-- The loop of `addStore` over the chains of an object. -/
def addToChains (I : ι) (offset : ℤ) : List (DominationChain ι) → List (DominationChain ι)
  | [] => [[(I, offset)]]
  | [] :: dcl => [] :: addToChains I offset dcl
  | ((leader, off) :: dc) :: dcl =>
    -- the first chain that fits takes the store, in front if it dominates the leader
    if DT.dominates leader I then ((leader, off) :: dc ++ [(I, offset)]) :: dcl
    else if DT.dominates I leader then ((I, offset) :: (leader, off) :: dc) :: dcl
    else ((leader, off) :: dc) :: addToChains I offset dcl

/-- `ObjectStoreDomationMap`, without entries for objects that have none. -/
abbrev StoreDominationMap (ι : Type*) := ℕ → List (DominationChain ι)

/-- `ObjectStoreDomationMap::addStore` for one member of the set. -/
def addStore (map : StoreDominationMap ι) (I : ι) : StoreDominationMap ι :=
  match F.storeAt I with
  | some s => Function.update map s.base (addToChains F DT I s.offset (map s.base))
  | none => map

/-- The map behind the loop of `aggregateStores`. -/
def storeDominationMap (L : List ι) : StoreDominationMap ι :=
  L.foldl (addStore F DT) fun _ => []

/-- A call of `instrumentRange`, with the stores whose hooks it replaces. -/
structure RangeHook (ι : Type*) where
  dominator : ι
  base : ℕ
  lo : ℤ
  size : ℤ
  members : List ι

/-- The body of `dump` for one chain: the smallest offset, and the largest as the size. -/
def dumpChain (V : ℕ) : DominationChain ι → Option (RangeHook ι)
  | [] => none
  -- a store on its own keeps its hook
  | [_] => none
  | (leader, off) :: e :: dc => some
    { dominator := leader
      base := V
      lo := ((e :: dc).map Prod.snd).foldl min off
      size := ((e :: dc).map Prod.snd).foldl max off
      members := leader :: (e :: dc).map Prod.fst }

/-- `aggregateStores`: the range hooks it inserts. -/
def aggregateStores (L : List ι) : List (RangeHook ι) :=
  if o.aggregateStructStores then
    (L.filterMap fun n => (F.storeAt n).map StoreOp.base).dedup.flatMap fun V =>
      (storeDominationMap F DT L V).filterMap (dumpChain V)
  else []

/-! ### Dominance in what the pass computes -/

variable {F DT o}

theorem storeAt_eq_some {n : ι} {s : StoreOp} : F.storeAt n = some s ↔ F.instAt n = .store s := by
  unfold PassFunction.storeAt
  split <;> simp_all

variable {V n a : ℕ} {L : List ι} {r : RangeHook ι} {q : List (Step ι ℕ ℕ)} {x : Step ι ℕ ℕ}

/-- `recusercheck` collects stores that `S` dominates. -/
theorem dominates_of_mem_recusercheck {S ss : ι} {us : Users ι}
    (h : ss ∈ recusercheck F DT S V us) : F.graph.Dominates S ss := by
  induction us generalizing V with
  | nil => exact absurd h (List.not_mem_nil)
  | store ss' rest ih =>
    rw [recusercheck] at h
    split at h
    · rename_i hdom
      rcases List.mem_cons.mp h with rfl | h
      · exact (DT.dominates_iff _ _).mp hdom.1
      · exact ih h
    · exact ih h
  | cast W users rest ihUsers ih =>
    rcases List.mem_append.mp h with h | h
    · exact ihUsers h
    · exact ih h

theorem dominates_of_mem_doubleStores {S ss : ι} (h : ss ∈ doubleStores F DT S) :
    F.graph.Dominates S ss := by
  unfold doubleStores at h
  split at h
  · exact dominates_of_mem_recusercheck h
  · exact absurd h (List.not_mem_nil)

/-- **The shape of a chain**: the leader is a store to the object and dominates the rest. -/
def LedBy (F : PassFunction ι) (V : ℕ) (dc : DominationChain ι) : Prop :=
  ∀ e ∈ dc.head?, (∃ s, F.storeAt e.1 = some s ∧ s.base = V) ∧
    ∀ e' ∈ dc.tail, F.graph.Dominates e.1 e'.1

/-- Adding a store to the chains of its object keeps the shape. -/
theorem ledBy_addToChains {I : ι} {s : StoreOp} (hs : F.storeAt I = some s) (hV : s.base = V)
    (off : ℤ) {dcl : List (DominationChain ι)} (h : ∀ dc ∈ dcl, LedBy F V dc) :
    ∀ dc ∈ addToChains F DT I off dcl, LedBy F V dc := by
  induction dcl with
  | nil =>
    intro dc hdc
    rw [addToChains, List.mem_singleton] at hdc
    subst hdc
    rintro e ⟨⟩
    exact ⟨⟨s, hs, hV⟩, fun e' he' => absurd he' (List.not_mem_nil)⟩
  | cons dc dcl ih =>
    have hrest := ih fun dc' hdc' => h dc' (List.mem_cons_of_mem _ hdc')
    have hdcl : ∀ dc' ∈ dcl, LedBy F V dc' := fun dc' hdc' => h dc' (List.mem_cons_of_mem _ hdc')
    have hdc := h dc (List.mem_cons_self ..)
    match dc with
    | [] =>
      rw [addToChains, List.forall_mem_cons]
      exact ⟨hdc, hrest⟩
    | (leader, off') :: dc =>
      obtain ⟨hleader, hdom⟩ := hdc (leader, off') rfl
      rw [addToChains]
      split_ifs with hpush hfront
      · -- `push_back`
        rw [List.forall_mem_cons]
        refine ⟨?_, hdcl⟩
        rintro e ⟨⟩
        refine ⟨hleader, fun e' he' => ?_⟩
        rcases List.mem_append.mp he' with he' | he'
        · exact hdom e' he'
        · rw [List.mem_singleton.mp he']
          exact (DT.dominates_iff _ _).mp hpush
      · -- `push_front`: what the old leader dominates, the new one dominates, too
        rw [List.forall_mem_cons]
        refine ⟨?_, hdcl⟩
        have hI := (DT.dominates_iff _ _).mp hfront
        rintro e ⟨⟩
        refine ⟨⟨s, hs, hV⟩, fun e' he' => ?_⟩
        rcases List.mem_cons.mp he' with rfl | he'
        · exact hI
        · exact hI.trans (hdom e' he')
      · rw [List.forall_mem_cons]
        exact ⟨hdc, hrest⟩

/-- What adding a store keeps for the chains of its object holds for all chains of the map. -/
theorem forall_storeDominationMap {P : ℕ → DominationChain ι → Prop}
    (hadd : ∀ I s dcl, F.storeAt I = some s → (∀ dc ∈ dcl, P s.base dc) →
      ∀ dc ∈ addToChains F DT I s.offset dcl, P s.base dc) :
    ∀ dc ∈ storeDominationMap F DT L V, P V dc := by
  unfold storeDominationMap
  suffices h : ∀ map : StoreDominationMap ι, (∀ V, ∀ dc ∈ map V, P V dc) →
      ∀ V, ∀ dc ∈ L.foldl (addStore F DT) map V, P V dc from
    h _ (fun _ _ hdc => absurd hdc (List.not_mem_nil)) V
  intro map hmap
  induction L generalizing map with
  | nil => exact hmap
  | cons I L ih =>
    refine ih _ fun V => ?_
    rw [addStore]
    match hs : F.storeAt I with
    | none => exact hmap V
    | some s =>
      show ∀ dc ∈ Function.update map s.base (addToChains F DT I s.offset (map s.base)) V, _
      by_cases hV : V = s.base
      · subst hV
        rw [Function.update_self]
        exact hadd I s _ hs (hmap _)
      · rw [Function.update_of_ne hV]
        exact hmap V

/-- All chains of the map have the shape. -/
theorem ledBy_storeDominationMap : ∀ dc ∈ storeDominationMap F DT L V, LedBy F V dc :=
  forall_storeDominationMap fun _ _ _ hs h => ledBy_addToChains hs rfl _ h

/-- **Range hooks stand at dominators.**  The hook of a chain stands at a store to its object that
    dominates the other members. -/
theorem rangeHook_dominator (hr : r ∈ aggregateStores F DT o L) :
    (∃ s, F.storeAt r.dominator = some s ∧ s.base = r.base) ∧
      ∀ n ∈ r.members, n = r.dominator ∨ F.graph.Dominates r.dominator n := by
  unfold aggregateStores at hr
  split at hr
  · obtain ⟨V, -, hr⟩ := List.mem_flatMap.mp hr
    obtain ⟨dc, hdc, hdump⟩ := List.mem_filterMap.mp hr
    have hled := ledBy_storeDominationMap dc hdc
    match dc, hdump with
    | (leader, off) :: e :: dc, rfl =>
      obtain ⟨hleader, hdom⟩ := hled (leader, off) rfl
      refine ⟨hleader, fun n hn => ?_⟩
      rcases List.mem_cons.mp hn with rfl | hn
      · exact Or.inl rfl
      · obtain ⟨e', he', rfl⟩ := List.mem_map.mp hn
        exact Or.inr (hdom e' he')
  · exact absurd hr (List.not_mem_nil)

/-! ### The instrumented function -/

variable (F DT o) [DecidableEq ι]

/-- `eliminateDoubleStores`: what is left of the instructions `IL`, in the order of the set. -/
def eliminateDoubleStores (IL : List ι) : List ι :=
  if o.hasDSA then IL.filter fun ss => ss ∉ IL.flatMap (doubleStores F DT) else IL

/-- What `onFunction` instruments in the end. -/
structure InstrumentedFunction (ι : Type*) where
  hooks : List ι
  ranges : List (RangeHook ι)

/-- The last part of `LtCkptPassBasic::onFunction`, for the instructions it has collected. -/
def onFunction (IL : List ι) : InstrumentedFunction ι :=
  let left := eliminateDoubleStores F DT o IL
  -- the chains are built from what the elimination left
  let ranges := aggregateStores F DT o left
  ⟨left.filter fun n => ∀ r ∈ ranges, n ∉ r.members, ranges⟩

/-! ### The hooks at run time -/

/-- `APInt` bits as an `unsigned long`. -/
def ulongOfInt (z : ℤ) : ℕ := (z % 2 ^ 64).toNat

/-- The contents of a value in front of a step, a 64-bit word. -/
def word (t : Step ι ℕ ℕ) (v : ℕ) : ℕ := ulong (t.val v)

/-- The call that `instrumentRange` inserts for a chain. -/
def RangeHook.call (r : RangeHook ι) (t : Step ι ℕ ℕ) : HookCall :=
  instrumentRange (word t r.base) (ulongOfInt r.lo) (ulongOfInt r.size)

/-- The call that `instrumentStore` or `instrumentMemIntrinsic` inserts for an instruction. -/
def instHook (t : Step ι ℕ ℕ) : List HookCall :=
  match F.instAt t.node with
  | .store s => [instrumentStore ⟨word t s.stripped, s.width, Nat.mod_lt _ (by decide)⟩]
  | .memIntrinsic dest length => [.memcpyHook (word t dest) (word t length)]
  | _ => []

/-- The hook calls in front of a step. -/
def hooksAt (P : InstrumentedFunction ι) (t : Step ι ℕ ℕ) : List HookCall :=
  (P.ranges.filter fun r => r.dominator = t.node).map (fun r => r.call t) ++
    if t.node ∈ P.hooks then instHook F t else []

/-- The step calls the top-of-the-loop hook. -/
def isCheckpoint (t : Step ι ℕ ℕ) : Bool :=
  match F.instAt t.node with
  | .topOfTheLoop => true
  | _ => false

/-- Some hook call after the last checkpoint in front of `t` logs the `n` bytes from `a` on,
    whatever the log looks like when it is made. -/
def LoggedSinceCheckpoint (P : InstrumentedFunction ι) (es : List (Step ι ℕ ℕ))
    (t : Step ι ℕ ℕ) (a n : ℕ) : Prop :=
  ∃ q x r, es ++ [t] = q ++ x :: r ∧ (∀ y ∈ r, isCheckpoint F y = false) ∧
    ∃ c ∈ hooksAt F P x, ∀ L st, Covers (hookGranules L st c) a n

/-- **Sound removal.**  On every path to a store whose hook is dropped, a hook call since the last
    checkpoint logs all bytes of the store. -/
def DropsSoundly (IL : List ι) : Prop :=
  ∀ es t s, IsExec F.graph F.defs (es ++ [t]) → t.node ∈ IL → F.storeAt t.node = some s →
    t.node ∉ (onFunction F DT o IL).hooks →
    LoggedSinceCheckpoint F (onFunction F DT o IL) es t (word t s.stripped) s.width

/-! ### When a hook may be dropped -/

/-- No checkpoint since the last visit of `n`. -/
def NoCheckpointSince (n : ι) (es : List (Step ι ℕ ℕ)) : Prop :=
  ∀ y ∈ es.reverse.takeWhile (fun y => y.node ≠ n), isCheckpoint F y = false

/-- The store writes into the granules that the call for the chain logs: the size of the call is
    the largest offset, without the width of the store there. -/
def RangeHook.Includes (r : RangeHook ι) (t : Step ι ℕ ℕ) (s : StoreOp) : Prop :=
  let a := ulong (word t r.base + ulongOfInt r.lo)
  let e := rangeEnd a (ulongOfInt r.size)
  a + ulongOfInt r.size + 8 ≤ 2 ^ 64 ∧ granule a ≤ word t s.stripped ∧
    word t s.stripped < e ∧ word t s.stripped + s.width ≤ e

/-- A double store is safe to leave out if one of the stores it doubles has the same pointer, no
    checkpoint came in between, and the store stays in one granule. -/
def DoubleSafe (IL : List ι) (es : List (Step ι ℕ ℕ)) (t : Step ι ℕ ℕ) (s : StoreOp) : Prop :=
  ∃ S ∈ IL, t.node ∈ doubleStores F DT S ∧
    (F.storeAt S).map StoreOp.stripped = some s.stripped ∧ NoCheckpointSince F S es ∧
    word t s.stripped % 8 + s.width ≤ 8

/-- A member of a chain is safe to leave out if the range of the chain includes it and no
    checkpoint came since the leader. -/
def RangeSafe (r : RangeHook ι) (es : List (Step ι ℕ ℕ)) (t : Step ι ℕ ℕ) (s : StoreOp) : Prop :=
  (t.node ≠ r.dominator → NoCheckpointSince F r.dominator es) ∧ r.Includes t s

/-- The condition on an executed store: where its hook is left out, it is safe to do so. -/
def DropSafe (IL : List ι) (es : List (Step ι ℕ ℕ)) (t : Step ι ℕ ℕ) : Prop :=
  ∀ s ∈ F.storeAt t.node, t.node ∈ IL →
    (t.node ∉ eliminateDoubleStores F DT o IL → DoubleSafe F DT IL es t s) ∧
      ∀ r ∈ (onFunction F DT o IL).ranges, t.node ∈ r.members → RangeSafe F r es t s

instance (n : ι) (es : List (Step ι ℕ ℕ)) : Decidable (NoCheckpointSince F n es) :=
  inferInstanceAs (Decidable (∀ y ∈ _, _))

omit [DecidableEq ι] in
instance (r : RangeHook ι) (t : Step ι ℕ ℕ) (s : StoreOp) : Decidable (r.Includes t s) :=
  inferInstanceAs (Decidable (_ ∧ _ ∧ _ ∧ _))

instance (IL : List ι) (es : List (Step ι ℕ ℕ)) (t : Step ι ℕ ℕ) (s : StoreOp) :
    Decidable (DoubleSafe F DT IL es t s) :=
  inferInstanceAs (Decidable (∃ S ∈ IL, _ ∧ _ ∧ _ ∧ _))

instance (r : RangeHook ι) (es : List (Step ι ℕ ℕ)) (t : Step ι ℕ ℕ) (s : StoreOp) :
    Decidable (RangeSafe F r es t s) :=
  inferInstanceAs (Decidable ((_ → _) ∧ _))

instance (IL : List ι) (es : List (Step ι ℕ ℕ)) (t : Step ι ℕ ℕ) :
    Decidable (DropSafe F DT o IL es t) :=
  inferInstanceAs (Decidable (∀ s ∈ F.storeAt t.node, _ → (_ → _) ∧ ∀ r ∈ _, _ → _))

/-- What `NoCheckpointSince` says about the steps behind the last visit. -/
theorem NoCheckpointSince.behind_last {F : PassFunction ι} {n : ι} {r : List (Step ι ℕ ℕ)}
    (h : NoCheckpointSince F n (q ++ x :: r)) (hr : ∀ y ∈ r, y.node ≠ n) :
    ∀ y ∈ r, isCheckpoint F y = false := by
  intro y hy
  refine h y ?_
  have hrev : (q ++ x :: r).reverse = r.reverse ++ x :: q.reverse := by simp
  rw [hrev, List.takeWhile_append_of_pos fun z hz => by simpa using hr z (List.mem_reverse.mp hz)]
  exact List.mem_append_left _ (List.mem_reverse.mpr hy)


/-! ### Safe executions -/

variable {F DT o} {IL : List ι} {es : List (Step ι ℕ ℕ)} {t : Step ι ℕ ℕ} {s : StoreOp}

omit [DecidableEq ι] in
/-- A store is no checkpoint. -/
theorem isCheckpoint_of_storeAt {t : Step ι ℕ ℕ} {s : StoreOp} (h : F.storeAt t.node = some s) :
    isCheckpoint F t = false := by
  rw [isCheckpoint, storeAt_eq_some.mp h]

variable {P : InstrumentedFunction ι}

/-- A smaller range is logged with a larger one. -/
theorem LoggedSinceCheckpoint.mono {b m : ℕ} (h : LoggedSinceCheckpoint F P es t a n) (hlo : a ≤ b)
    (hhi : b + m ≤ a + n) : LoggedSinceCheckpoint F P es t b m := by
  obtain ⟨q, x, r, heq, hr, c, hc, hcov⟩ := h
  exact ⟨q, x, r, heq, hr, c, hc, fun L st y hy hy' => hcov L st y (by omega) (by omega)⟩

/-- What is logged at an earlier step stays logged up to the next checkpoint. -/
theorem LoggedSinceCheckpoint.later {r : List (Step ι ℕ ℕ)} (h : LoggedSinceCheckpoint F P q x a n)
    (hr : ∀ y ∈ r, isCheckpoint F y = false) (ht : isCheckpoint F t = false) :
    LoggedSinceCheckpoint F P (q ++ x :: r) t a n := by
  obtain ⟨q', x', r', heq, hr', hlog⟩ := h
  refine ⟨q', x', r' ++ (r ++ [t]), ?_, ?_, hlog⟩
  · calc q ++ x :: r ++ [t] = q ++ [x] ++ (r ++ [t]) := by simp
      _ = q' ++ x' :: (r' ++ (r ++ [t])) := by simp [heq]
  · intro y hy
    rcases List.mem_append.mp hy with hy | hy
    · exact hr' y hy
    · rcases List.mem_append.mp hy with hy | hy
      · exact hr y hy
      · rwa [List.mem_singleton.mp hy]

/-- A hook call in front of the step itself. -/
theorem LoggedSinceCheckpoint.here {c : HookCall} (hc : c ∈ hooksAt F P t)
    (hcov : ∀ L st, Covers (hookGranules L st c) a n) : LoggedSinceCheckpoint F P es t a n :=
  ⟨es, t, [], rfl, fun _ hy => absurd hy (List.not_mem_nil), c, hc, hcov⟩

omit [DecidableEq ι] in
/-- The last visit of a dominator of the current instruction. -/
theorem exists_last_of_dominates {d : ι} (hexec : IsExec F.graph F.defs (es ++ [t]))
    (hdom : F.graph.Dominates d t.node) :
    ∃ q x r, es = q ++ x :: r ∧ x.node = d ∧ ∀ y ∈ r, y.node ≠ d := by
  have hpath : F.graph.IsPath (es.map Step.node ++ [t.node]) := by simpa using hexec.path
  obtain ⟨x, hx, hnode⟩ := List.mem_map.mp (hdom _ hpath)
  exact exists_last ⟨x, hx, hnode⟩

omit [DecidableEq ι] in
/-- A pointer has the contents that the last visit of a dominating store saw, if that store uses
    it, too. -/
theorem word_eq_of_last {r : List (Step ι ℕ ℕ)} {v : ℕ} {s' : StoreOp}
    (hexec : IsExec F.graph F.defs (q ++ x :: r ++ [t])) (hx : F.storeAt x.node = some s')
    (hv : v = s'.stripped ∨ v = s'.base) (hdom : F.graph.Dominates x.node t.node)
    (hlast : ∀ y ∈ r, y.node ≠ x.node) : word t v = word x v := by
  rw [List.append_assoc, List.cons_append] at hexec
  rw [word, word, hexec.val_eq_of_last
    (fun d hd => F.ssa _ _ _ _ (storeAt_eq_some.mp hx) hv hd) hdom hlast]

omit [DecidableEq ι] in
/-- The call for a chain logs the granules up to the end of its range. -/
theorem covers_rangeHook
    (hend : ulong (word t r.base + ulongOfInt r.lo) + ulongOfInt r.size + 8 ≤ 2 ^ 64)
    (hlo : granule (ulong (word t r.base + ulongOfInt r.lo)) ≤ a)
    (hhi : a + n ≤ rangeEnd (ulong (word t r.base + ulongOfInt r.lo)) (ulongOfInt r.size))
    (L : Layout) (st : WlState) : Covers (hookGranules L st (r.call t)) a n :=
  covers_memcpyHook L st hend hlo hhi

/-- **Members of a chain.**  What the call for the chain logs at a safe member is in the log: the
    call was made at the leader, for the same object. -/
theorem rangeHook_logged (hr : r ∈ (onFunction F DT o IL).ranges) (hmem : t.node ∈ r.members)
    (hexec : IsExec F.graph F.defs (es ++ [t])) (hs : F.storeAt t.node = some s)
    (hsafe : RangeSafe F r es t s) (hcov : ∀ L st, Covers (hookGranules L st (r.call t)) a n) :
    LoggedSinceCheckpoint F (onFunction F DT o IL) es t a n := by
  have hat : ∀ x : Step ι ℕ ℕ, x.node = r.dominator →
      r.call x ∈ hooksAt F (onFunction F DT o IL) x := fun x hx =>
    List.mem_append_left _ (List.mem_map_of_mem (List.mem_filter.mpr ⟨hr, by simp [hx]⟩))
  obtain ⟨⟨s', hs', hbase⟩, hdoms⟩ := rangeHook_dominator hr
  -- at the leader the call stands in front of the store; elsewhere it was made at the last visit
  -- of the leader, with the contents that the object's pointer still has
  by_cases hleader : t.node = r.dominator
  · exact .here (hat t hleader) hcov
  · have hdom := (hdoms _ hmem).resolve_left hleader
    obtain ⟨q, x, rest, rfl, hx, hlast⟩ := exists_last_of_dominates hexec hdom
    rw [← hx] at hs' hdom
    have hword : word t r.base = word x r.base :=
      word_eq_of_last hexec hs' (Or.inr hbase.symm) hdom (by rwa [hx])
    have hcall : r.call t = r.call x := by rw [RangeHook.call, RangeHook.call, hword]
    rw [hcall] at hcov
    exact (LoggedSinceCheckpoint.here (hat x hx) hcov).later
      ((hsafe.1 hleader).behind_last hlast) (isCheckpoint_of_storeAt hs)

/-- A dropped hook was dropped by one of the two optimisations. -/
theorem dropped_by {n : ι} (hdrop : n ∉ (onFunction F DT o IL).hooks) :
    n ∉ eliminateDoubleStores F DT o IL ∨ ∃ r ∈ (onFunction F DT o IL).ranges, n ∈ r.members := by
  by_contra hnot
  push Not at hnot
  exact hdrop (List.mem_filter.mpr ⟨hnot.1, decide_eq_true hnot.2⟩)

omit [DecidableEq ι] in
/-- The granule that a store starts in is among those of a range that includes the store. -/
theorem RangeHook.Includes.granule_covers (h : r.Includes t s) (L : Layout) (st : WlState) :
    Covers (hookGranules L st (r.call t)) (granule (word t s.stripped)) 8 := by
  obtain ⟨hend, hlo, hlt, -⟩ := h
  have hg : ∀ b, granule b = b - b % 8 := fun _ => rfl
  refine covers_rangeHook hend ?_ ?_ L st
  · rw [hg] at hlo
    rw [hg, hg]
    omega
  · rw [rangeEnd, hg] at hlt
    rw [rangeEnd, hg, hg]
    omega

/-- A store with a hook of its own. -/
theorem keptStore_logged (hkept : t.node ∈ P.hooks) (hs : F.storeAt t.node = some s) :
    LoggedSinceCheckpoint F P es t (granule (word t s.stripped)) 8 := by
  have hhook : instHook F t =
      [instrumentStore ⟨word t s.stripped, s.width, Nat.mod_lt _ (by decide)⟩] := by
    rw [instHook, storeAt_eq_some.mp hs]
  have hc : instrumentStore ⟨word t s.stripped, s.width, Nat.mod_lt _ (by decide)⟩ ∈
      hooksAt F P t := by
    refine List.mem_append_right _ ?_
    rw [if_pos hkept, hhook]
    exact List.mem_singleton_self _
  refine .here hc fun L st x hlo hhi => ?_
  rw [hookGranules_instrumentStore]
  exact ⟨_, List.mem_singleton_self _, hlo, hhi⟩

/-- **The granule of every instrumented store is in the log.**  Induction on the path: a dropped
    double store relies on the last visit of the store it doubles, which may be a dropped one. -/
theorem granule_logged (hexec : IsExec F.graph F.defs (es ++ [t]))
    (hsafe : Along (DropSafe F DT o IL) [] (es ++ [t])) (hmem : t.node ∈ IL)
    (hs : F.storeAt t.node = some s) :
    LoggedSinceCheckpoint F (onFunction F DT o IL) es t (granule (word t s.stripped)) 8 := by
  induction hlen : es.length using Nat.strong_induction_on generalizing es t s with
  | _ k ih =>
  obtain ⟨hdouble, hrange⟩ := hsafe.at (q := es) (r := []) s hs hmem
  by_cases hkept : t.node ∈ (onFunction F DT o IL).hooks
  · exact keptStore_logged hkept hs
  · rcases dropped_by hkept with hdrop | ⟨r, hr, hmem'⟩
    · obtain ⟨S, hS, hds, hstripped, hno, -⟩ := hdouble hdrop
      have hdom := dominates_of_mem_doubleStores hds
      obtain ⟨s', hs', hptr⟩ := Option.map_eq_some_iff.mp hstripped
      obtain ⟨q, x, r, rfl, rfl, hlast⟩ := exists_last_of_dominates hexec hdom
      -- `x` saw the same pointer, and the path up to `x` is shorter
      have hcut : q ++ x :: r ++ [t] = q ++ x :: (r ++ [t]) := by simp
      have hword := word_eq_of_last hexec hs' (Or.inl hptr.symm) hdom hlast
      have hx : LoggedSinceCheckpoint F (onFunction F DT o IL) q x
          (granule (word x s'.stripped)) 8 :=
        ih q.length (by simp [← hlen]) (hcut ▸ hexec).cut (hcut ▸ hsafe).cut hS hs' rfl
      rw [hword, ← hptr]
      exact hx.later (hno.behind_last hlast) (isCheckpoint_of_storeAt hs)
    · have hin := hrange r hr hmem'
      exact rangeHook_logged hr hmem' hexec hs hin hin.2.granule_covers

/-- **Dropped hooks.**  In every execution whose stores all meet `DropSafe`, a hook call since the
    last checkpoint logs all bytes of a store whose own hook was dropped. -/
theorem droppedStore_logged (hexec : IsExec F.graph F.defs (es ++ [t]))
    (hsafe : Along (DropSafe F DT o IL) [] (es ++ [t])) (hmem : t.node ∈ IL)
    (hs : F.storeAt t.node = some s) (hdrop : t.node ∉ (onFunction F DT o IL).hooks) :
    LoggedSinceCheckpoint F (onFunction F DT o IL) es t (word t s.stripped) s.width := by
  obtain ⟨hdouble, hrange⟩ := hsafe.at (q := es) (r := []) s hs hmem
  rcases dropped_by hdrop with hdrop | ⟨r, hr, hmem'⟩
  · obtain ⟨S, -, -, -, -, hone⟩ := hdouble hdrop
    have hg : granule (word t s.stripped) = word t s.stripped - word t s.stripped % 8 := rfl
    exact (granule_logged hexec hsafe hmem hs).mono (by omega) (by omega)
  · have hin := hrange r hr hmem'
    obtain ⟨hend, hlo, -, hhi⟩ := hin.2
    exact rangeHook_logged hr hmem' hexec hs hin (covers_rangeHook hend hlo hhi)

end Pass

/-! ### Straight-line functions -/

/-- A function without branches whose pointers are arguments. -/
def straightFunction (insts : List PassInst) (users : ℕ → Users ℕ) : PassFunction ℕ where
  graph := straightLine
  instAt n := insts.getD n .other
  users := users
  stripPointerCasts := id
  defs _ := none
  ssa _ _ _ _ _ _ h := absurd h nofun

/-- Its dominator tree. -/
def straightTree (insts : List PassInst) (users : ℕ → Users ℕ) :
    DominatorTree (straightFunction insts users).graph where
  dominates a b := a < b
  dominates_iff a b := by
    rw [decide_eq_true_iff]
    exact (straightLine_dominates_iff a b).symm

/-- The step at an instruction of such a function, with two pointers eight bytes apart. -/
def straightStep (n : ℕ) : Step ℕ ℕ ℕ := ⟨n, fun v => 0x10000 + 8 * v⟩

theorem straightFunction_exec (insts : List PassInst) (users : ℕ → Users ℕ) (n : ℕ) :
    IsExec (straightFunction insts users).graph (straightFunction insts users).defs
      ((List.range n).map straightStep ++ [straightStep n]) := by
  rw [← List.map_singleton, ← List.map_append, ← List.range_succ]
  constructor
  · rw [List.map_map]
    show straightLine.IsPath _
    simpa [straightStep, Function.comp_def] using straightLine_isPath_range n
  · exact List.isChain_iff_getElem.mpr fun k hk v _ => by simp [straightStep]

/-- What the pass makes of such a function. -/
def straightOnFunction (insts : List PassInst) (users : ℕ → Users ℕ) (o : ElimOptions)
    (IL : List ℕ) : InstrumentedFunction ℕ :=
  onFunction (straightFunction insts users) (straightTree insts users) o IL

/-- Two stores to one pointer. -/
def storeTwice : List PassInst := [.store ⟨0, 0, 0, 8⟩, .store ⟨0, 0, 0, 8⟩]

/-- The users of the pointer of `storeTwice`. -/
def storeTwiceUsers (_ : ℕ) : Users ℕ := .store 0 (.store 1 .nil)

/-- The hook of the second store is dropped, and the first one logs its bytes. -/
theorem droppedStore_logged_store_twice :
    1 ∉ (straightOnFunction storeTwice storeTwiceUsers ⟨true, true⟩ [0, 1]).hooks ∧
      LoggedSinceCheckpoint (straightFunction storeTwice storeTwiceUsers)
        (straightOnFunction storeTwice storeTwiceUsers ⟨true, true⟩ [0, 1])
        [straightStep 0] (straightStep 1) 0x10000 8 := by
  have hdrop : 1 ∉ (straightOnFunction storeTwice storeTwiceUsers ⟨true, true⟩ [0, 1]).hooks := by
    decide +kernel
  exact ⟨hdrop, droppedStore_logged (s := ⟨0, 0, 0, 8⟩) (straightFunction_exec _ _ 1)
    (by decide +kernel) (by decide) rfl hdrop⟩

/-- A store, a checkpoint, and a store to the same pointer. -/
def storeAcrossCheckpoint : List PassInst :=
  [.store ⟨0, 0, 0, 8⟩, .topOfTheLoop, .store ⟨0, 0, 0, 8⟩]

/-- The users of the pointer of `storeAcrossCheckpoint`. -/
def storeAcrossCheckpointUsers (_ : ℕ) : Users ℕ := .store 0 (.store 2 .nil)

/-- Stores to the first two fields of an object. -/
def storeFields : List PassInst := [.store ⟨0, 0, 0, 8⟩, .store ⟨1, 0, 8, 8⟩]

/-- The checkpoint empties the log, and nothing behind it has a hook. -/
theorem storeAcrossCheckpoint_not_logged :
    ¬ LoggedSinceCheckpoint (straightFunction storeAcrossCheckpoint storeAcrossCheckpointUsers)
      (straightOnFunction storeAcrossCheckpoint storeAcrossCheckpointUsers ⟨true, false⟩ [0, 2])
      [straightStep 0, straightStep 1] (straightStep 2) 0x10000 8 := by
  rintro ⟨q, x, r, heq, hr, c, hc, -⟩
  have hnone : ∀ n ∈ [1, 2],
      hooksAt (straightFunction storeAcrossCheckpoint storeAcrossCheckpointUsers)
        (straightOnFunction storeAcrossCheckpoint storeAcrossCheckpointUsers ⟨true, false⟩ [0, 2])
        (straightStep n) = [] := by decide +kernel
  rcases q with _ | ⟨_, _ | ⟨_, _ | ⟨_, q⟩⟩⟩ <;> simp at heq
  · obtain ⟨rfl, rfl⟩ := heq
    exact absurd (hr (straightStep 1) (by simp)) (by decide)
  · obtain ⟨-, rfl, -⟩ := heq
    rw [hnone 1 (by simp)] at hc
    exact absurd hc (List.not_mem_nil)
  · obtain ⟨-, -, rfl, -⟩ := heq
    rw [hnone 2 (by simp)] at hc
    exact absurd hc (List.not_mem_nil)

/-- The call for the two fields logs the eight bytes of the first one. -/
theorem storeFields_not_logged :
    ¬ LoggedSinceCheckpoint (straightFunction storeFields fun _ => .nil)
      (straightOnFunction storeFields (fun _ => .nil) ⟨false, true⟩ [0, 1])
      [straightStep 0] (straightStep 1) 0x10008 8 := by
  rintro ⟨q, x, r, heq, -, c, hc, hcov⟩
  have hfirst : hooksAt (straightFunction storeFields fun _ => .nil)
      (straightOnFunction storeFields (fun _ => .nil) ⟨false, true⟩ [0, 1])
      (straightStep 0) = [.memcpyHook 0x10000 8] := by decide +kernel
  have hsecond : hooksAt (straightFunction storeFields fun _ => .nil)
      (straightOnFunction storeFields (fun _ => .nil) ⟨false, true⟩ [0, 1])
      (straightStep 1) = [] := by decide +kernel
  rcases q with _ | ⟨_, _ | ⟨_, q⟩⟩ <;> simp at heq
  · obtain ⟨rfl, -⟩ := heq
    rw [hfirst, List.mem_singleton] at hc
    subst hc
    obtain ⟨g, hg, -, hlt⟩ := hcov sampleLayout ⟨fun _ => 0, 0, ⟨1, 0, 0, 0⟩⟩ 0x10008
      (by decide) (by decide)
    rw [ltckptMemcpyHook_logged _ _ (by decide)] at hg
    obtain rfl : g = granule 0x10000 := by simpa using hg
    exact absurd hlt (by decide)
  · obtain ⟨-, rfl, -⟩ := heq
    rw [hsecond] at hc
    exact absurd hc (List.not_mem_nil)

/-- The second store to one pointer has no hook although the checkpoint in between empties the
    log; and the range for two aggregated 8-byte stores ends where the second one begins. -/
theorem dropped_across_checkpoint_and_past_range :
    ¬ DropsSoundly (straightFunction storeAcrossCheckpoint storeAcrossCheckpointUsers)
        (straightTree storeAcrossCheckpoint storeAcrossCheckpointUsers) ⟨true, false⟩ [0, 2] ∧
      ¬ DropsSoundly (straightFunction storeFields fun _ => .nil)
        (straightTree storeFields fun _ => .nil) ⟨false, true⟩ [0, 1] := by
  constructor
  · intro h
    exact storeAcrossCheckpoint_not_logged (h [straightStep 0, straightStep 1] (straightStep 2)
      ⟨0, 0, 0, 8⟩ (straightFunction_exec _ _ 2) (by decide) rfl (by decide +kernel))
  · intro h
    exact storeFields_not_logged (h [straightStep 0] (straightStep 1) ⟨1, 0, 8, 8⟩
      (straightFunction_exec _ _ 1) (by decide) rfl (by decide +kernel))

end Firestarter.Ltckpt
