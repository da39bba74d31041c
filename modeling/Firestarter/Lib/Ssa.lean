import Mathlib.Data.List.Basic
import Mathlib.Logic.Function.Basic
import Mathlib.Logic.Relation
import Firestarter.Lib.Cfg

namespace Ssa

/-!
# Functions in static single assignment form

A function is a set of labelled basic blocks of instructions; the last instruction of a block is
its terminator.  The value of an instruction is named by the instruction.  A `phi` tells the edges
apart by the terminators they come from, so that they keep their names when a block is split.

A *slot* is a stack variable whose address is not taken: it is reached by loads and stores that
name it, and by nothing else.

* `execInst`, `execInsts`, `Func.step`: execution of an instruction, a list of them and a block;
* `Agree`: two states agree on the visible names and slots, and on memory;
* `execInst_agree`, `execInst_hidden`: what instructions do to agreeing states;
* `Func.ComesFirst`: an instruction comes before its uses.
-/

variable {ι κ : Type}

/-- An operand: the value of an instruction, of a stack allocation, or of something outside of the
    function's code (a constant, a global, a parameter). -/
inductive Value (ι : Type)
  | inst (i : ι)
  | alloca (i : ι)
  | other (n : ℕ)
  deriving DecidableEq, Repr

/-- The instruction that a value is the result of. -/
def Value.name? : Value ι → Option ι
  | .inst i => some i
  | .alloca i => some i
  | .other _ => none

/-- The same value under other names. -/
def Value.map (g : ι → κ) : Value ι → Value κ
  | .inst i => .inst (g i)
  | .alloca i => .alloca (g i)
  | .other n => .other n

/-- What a load or store accesses. -/
inductive Ptr (ι : Type)
  | val (v : Value ι)
  | slot (s : ι)
  deriving DecidableEq, Repr

/-- The values in a pointer operand. -/
def Ptr.operands : Ptr ι → List (Value ι)
  | .val v => [v]
  | .slot _ => []

/-- The operation of an instruction.  `compute` is any computation on values; `exit` is any
    terminator but a branch. -/
inductive Op (ι : Type)
  | alloca (size : Value ι)
  | load (ptr : Ptr ι)
  | store (val : Value ι) (ptr : Ptr ι)
  | phi (incoming : List (ι × Value ι))
  | call (callee : ℕ) (args : List (Value ι))
  | compute (code : ℕ) (operands : List (Value ι))
  | br (operands : List (Value ι)) (dests : List ι)
  | exit (operands : List (Value ι)) (dests : List ι)
  deriving DecidableEq, Repr

/-- The operands of an operation. -/
def Op.operands : Op ι → List (Value ι)
  | .alloca size => [size]
  | .load ptr => ptr.operands
  | .store val ptr => val :: ptr.operands
  | .phi incoming => incoming.map Prod.snd
  | .call _ args => args
  | .compute _ operands => operands
  | .br operands _ => operands
  | .exit operands _ => operands

/-- The blocks that a terminator leads to. -/
def Op.dests : Op ι → List ι
  | .br _ dests => dests
  | .exit _ dests => dests
  | _ => []

/-- The slot that an operation accesses. -/
def Op.slot? : Op ι → Option ι
  | .load (.slot s) => some s
  | .store _ (.slot s) => some s
  | _ => none

/-- The operation with its operands mapped by `f`, and other names by `g`. -/
def Op.bimap (f : Value ι → Value κ) (g : ι → κ) : Op ι → Op κ
  | .alloca size => .alloca (f size)
  | .load (.val v) => .load (.val (f v))
  | .load (.slot s) => .load (.slot (g s))
  | .store x (.val v) => .store (f x) (.val (f v))
  | .store x (.slot s) => .store (f x) (.slot (g s))
  | .phi incoming => .phi (incoming.map fun e => (g e.1, f e.2))
  | .call callee args => .call callee (args.map f)
  | .compute code operands => .compute code (operands.map f)
  | .br operands dests => .br (operands.map f) (dests.map g)
  | .exit operands dests => .exit (operands.map f) (dests.map g)

variable (f : Value ι → Value κ) (g : ι → κ)

@[simp] theorem operands_bimap (o : Op ι) : (o.bimap f g).operands = o.operands.map f := by
  cases o with
  | load ptr | store _ ptr => cases ptr <;> rfl
  | phi incoming => simp [Op.bimap, Op.operands]
  | _ => rfl

@[simp] theorem dests_bimap (o : Op ι) : (o.bimap f g).dests = o.dests.map g := by
  cases o with
  | load ptr | store _ ptr => cases ptr <;> rfl
  | _ => rfl

@[simp] theorem slot?_bimap (o : Op ι) : (o.bimap f g).slot? = o.slot?.map g := by
  cases o with
  | load ptr | store _ ptr => cases ptr <;> rfl
  | _ => rfl

theorem bimap_bimap {κ' : Type} (f' : Value κ → Value κ') (g' : κ → κ') (o : Op ι) :
    (o.bimap f g).bimap f' g' = o.bimap (f' ∘ f) (g' ∘ g) := by
  cases o with
  | load ptr | store _ ptr => cases ptr <;> rfl
  | _ => simp [Op.bimap]

variable {o : Op ι} {m : ι}

theorem bimap_congr {f f' : Value ι → Value κ} {g : ι → κ} (h : ∀ v ∈ o.operands, f v = f' v) :
    o.bimap f g = o.bimap f' g := by
  cases o with
  | load ptr => cases ptr <;> simp_all [Op.bimap, Op.operands, Ptr.operands]
  | store val ptr => cases ptr <;> simp_all [Op.bimap, Op.operands, Ptr.operands]
  | phi incoming =>
    refine congrArg Op.phi (List.map_congr_left fun e he => ?_)
    rw [h e.2 (List.mem_map_of_mem he)]
  | _ => simp_all [Op.bimap, Op.operands]

@[simp] theorem bimap_self (o : Op ι) : o.bimap (fun v => v) id = o := by
  cases o with
  | load ptr | store _ ptr => cases ptr <;> rfl
  | _ => simp [Op.bimap]

/-- An instruction. -/
structure Inst (ι : Type) where
  id : ι
  op : Op ι
  deriving DecidableEq, Repr

/-- The value of an instruction. -/
def Inst.value (I : Inst ι) : Value ι :=
  match I.op with
  | .alloca _ => .alloca I.id
  | _ => .inst I.id

@[simp] theorem name?_value (I : Inst ι) : I.value.name? = some I.id := by
  rw [Inst.value]
  split <;> rfl

theorem id_eq_of_value {I J : Inst ι} (h : I.value = J.value) : I.id = J.id := by
  have hname := name?_value I
  rw [h, name?_value] at hname
  exact (Option.some.inj hname).symm

/-- A function: its entry block, the labels of its blocks, and their instructions. -/
@[ext]
structure Func (ι : Type) where
  entry : ι
  labels : List ι
  block : ι → List (Inst ι)

/-! ### Execution -/

/-- What the code computes with: the values from outside, computations, calls, and the addresses of
    stack allocations. -/
structure World (ι : Type) where
  other : ℕ → ℕ
  compute : ℕ → List ℕ → ℕ
  call : ℕ → List ℕ → (ℕ → ℕ) → ℕ × (ℕ → ℕ)
  choose : List ℕ → ℕ
  frame : ι → ℕ → (ℕ → ℕ) → ℕ

/-- The values of the instructions, memory, and the slots. -/
structure State (ι : Type) where
  env : ι → ℕ
  mem : ℕ → ℕ
  slots : ι → ℕ

/-- The value of an operand. -/
def World.eval (W : World ι) (env : ι → ℕ) : Value ι → ℕ
  | .inst i => env i
  | .alloca i => env i
  | .other n => W.other n

variable (W : World ι)

theorem eval_value (env : ι → ℕ) (I : Inst ι) : W.eval env I.value = env I.id := by
  rw [Inst.value]
  split <;> rfl

section Exec

variable [DecidableEq ι]

/-- The state with another value of an instruction. -/
def State.set (s : State ι) (i : ι) (x : ℕ) : State ι := { s with env := Function.update s.env i x }

/-- The value that a load or a computation gets in a state. -/
def Op.value (W : World ι) (s : State ι) : Op ι → ℕ
  | .load (.val v) => s.mem (W.eval s.env v)
  | .load (.slot t) => s.slots t
  | .compute code operands => W.compute code (operands.map (W.eval s.env))
  | _ => 0

/-- **Execution of an instruction** in a block entered from `prev` with the values `entry`, which
    the `phi`s of the block read. -/
def execInst (W : World ι) (prev : ι) (entry : ι → ℕ) (s : State ι) (I : Inst ι) : State ι :=
  match I.op with
  | .alloca size => s.set I.id (W.frame I.id (W.eval s.env size) s.mem)
  | .store x (.val v) =>
    { s with mem := Function.update s.mem (W.eval s.env v) (W.eval s.env x) }
  | .store x (.slot t) => { s with slots := Function.update s.slots t (W.eval s.env x) }
  | .phi incoming => s.set I.id (((incoming.lookup prev).map (W.eval entry)).getD 0)
  | .call callee args =>
    let r := W.call callee (args.map (W.eval s.env)) s.mem
    { s.set I.id r.1 with mem := r.2 }
  | .br _ _ => s
  | .exit _ _ => s
  | o => s.set I.id (o.value W s)

/-- Execution of some instructions of a block. -/
def execInsts (W : World ι) (prev : ι) (entry : ι → ℕ) (s : State ι) (b : List (Inst ι)) :
    State ι :=
  b.foldl (execInst W prev entry) s

variable (W : World ι)

theorem execInsts_append (prev : ι) (entry : ι → ℕ) (s : State ι) (b b' : List (Inst ι)) :
    execInsts W prev entry s (b ++ b') = execInsts W prev entry (execInsts W prev entry s b) b' :=
  List.foldl_append

/-- Where a terminator leads. -/
def next (W : World ι) (env : ι → ℕ) (o : Op ι) : Option ι :=
  match o.dests with
  | [l] => some l
  | dests => dests[W.choose (o.operands.map (W.eval env))]?

/-- An execution at the start of a block: the terminator it came from, the block, the state. -/
structure Config (ι : Type) where
  prev : ι
  label : ι
  state : State ι

/-- The state behind the instructions `b` of the current block. -/
def Config.behind (W : World ι) (k : Config ι) (b : List (Inst ι)) : State ι :=
  execInsts W k.prev k.state.env k.state b

/-- **Execution of a block.** -/
def Func.step (W : World ι) (F : Func ι) (k : Config ι) : Option (Config ι) := do
  let t ← (F.block k.label).getLast?
  let s := k.behind W (F.block k.label)
  let l ← next W s.env t.op
  some ⟨t.id, l, s⟩

variable {F : Func ι} {k : Config ι}

theorem step_eq {t : Inst ι} (ht : (F.block k.label).getLast? = some t) :
    F.step W k = (next W (k.behind W (F.block k.label)).env t.op).map
      fun l => ⟨t.id, l, k.behind W (F.block k.label)⟩ := by
  rw [Func.step, ht, Option.map_eq_bind]
  rfl

/-- Execution of any number of blocks that are not in `avoid`. -/
def Func.Walk (W : World ι) (F : Func ι) (avoid : ι → Prop) : Config ι → Config ι → Prop :=
  Relation.ReflTransGen fun k k' => ¬ avoid k.label ∧ F.step W k = some k'

/-- The state in which the instruction `c` of the current block is reached. -/
def Func.stateAt (W : World ι) (F : Func ι) (c : ι) (k : Config ι) : State ι :=
  k.behind W ((F.block k.label).takeWhile (·.id ≠ c))

/-- The argument values that the call `c` of the current block receives. -/
def Func.argsAt (W : World ι) (F : Func ι) (c : ι) (k : Config ι) : List ℕ :=
  match (F.block k.label).find? (·.id = c) with
  | some ⟨_, .call _ args⟩ => args.map (W.eval (F.stateAt W c k).env)
  | _ => []

theorem stateAt_eq {b b' : List (Inst ι)} {C : Inst ι} (hblock : F.block k.label = b ++ C :: b')
    (hb : ∀ I ∈ b, I.id ≠ C.id) : F.stateAt W C.id k = k.behind W b := by
  have htake : (b ++ C :: b').takeWhile (fun I => decide (I.id ≠ C.id)) = b := by
    rw [List.takeWhile_append_of_pos fun I hI => decide_eq_true (hb I hI),
      List.takeWhile_cons_of_neg (by simp), List.append_nil]
  rw [Func.stateAt, hblock, htake]

theorem argsAt_eq {b b' : List (Inst ι)} {C : Inst ι} (hblock : F.block k.label = b ++ C :: b')
    (hb : ∀ I ∈ b, I.id ≠ C.id) {callee : ℕ} {args : List (Value ι)}
    (hop : C.op = .call callee args) :
    F.argsAt W C.id k = args.map (W.eval (k.behind W b).env) := by
  have hfind : (b ++ C :: b').find? (fun I => decide (I.id = C.id)) = some C := by
    have hnone : b.find? (fun I => decide (I.id = C.id)) = none :=
      List.find?_eq_none.mpr fun I hI heq => hb I hI (of_decide_eq_true heq)
    rw [List.find?_append, hnone, Option.none_or]
    exact List.find?_cons_of_pos (decide_eq_true rfl)
  obtain ⟨id, op⟩ := C
  subst hop
  rw [Func.argsAt, stateAt_eq W hblock hb, hblock, hfind]

end Exec

/-! ### Agreeing states -/

/-- **Agreement** of two states on the values named in `V`, the slots named in `S`, and memory. -/
structure Agree (V S : ι → Prop) (s s' : State ι) : Prop where
  env : ∀ i, V i → s.env i = s'.env i
  mem : s.mem = s'.mem
  slots : ∀ t, S t → s.slots t = s'.slots t

/-- An operation that reads only what is named in `V` and `S`. -/
structure Op.Within (V S : ι → Prop) (o : Op ι) : Prop where
  names : ∀ v ∈ o.operands, ∀ i ∈ v.name?, V i
  slots : ∀ t ∈ o.slot?, S t

theorem Agree.trans {V S : ι → Prop} {s₁ s₂ s₃ : State ι} (h : Agree V S s₁ s₂)
    (h' : Agree V S s₂ s₃) : Agree V S s₁ s₃ where
  env i hi := (h.env i hi).trans (h'.env i hi)
  mem := h.mem.trans h'.mem
  slots t ht := (h.slots t ht).trans (h'.slots t ht)

theorem Agree.symm {V S : ι → Prop} {s s' : State ι} (h : Agree V S s s') : Agree V S s' s where
  env i hi := (h.env i hi).symm
  mem := h.mem.symm
  slots t ht := (h.slots t ht).symm

theorem eval_agree {V : ι → Prop} {e e' : ι → ℕ} (h : ∀ i, V i → e i = e' i) {v : Value ι}
    (hv : ∀ i ∈ v.name?, V i) : W.eval e v = W.eval e' v := by
  cases v with
  | inst i => exact h i (hv i rfl)
  | alloca i => exact h i (hv i rfl)
  | other n => rfl

theorem map_eval_agree {V : ι → Prop} {e e' : ι → ℕ} (h : ∀ i, V i → e i = e' i)
    {vs : List (Value ι)} (hvs : ∀ v ∈ vs, ∀ i ∈ v.name?, V i) :
    vs.map (W.eval e) = vs.map (W.eval e') :=
  List.map_congr_left fun v hv => eval_agree W h (hvs v hv)

/-- A load or computation gets the same in agreeing states. -/
theorem value_agree {V S : ι → Prop} {s s' : State ι} (h : Agree V S s s') (ho : o.Within V S) :
    o.value W s = o.value W s' := by
  cases o with
  | load ptr =>
    cases ptr with
    | val v =>
      show s.mem _ = s'.mem _
      rw [h.mem, eval_agree W h.env (ho.names v List.mem_cons_self)]
    | slot t => exact h.slots t (ho.slots t rfl)
  | compute code operands => exact congrArg (W.compute code) (map_eval_agree W h.env ho.names)
  | _ => rfl

theorem next_agree {V S : ι → Prop} {s s' : State ι} (h : Agree V S s s') (ho : o.Within V S) :
    next W s.env o = next W s'.env o := by
  rw [next, next, map_eval_agree W h.env ho.names]

section ExecAgree

variable [DecidableEq ι] {V S : ι → Prop} {s s' : State ι}

theorem Agree.set (h : Agree V S s s') (i : ι) (x : ℕ) : Agree V S (s.set i x) (s'.set i x) where
  env j hj := by
    show Function.update s.env i x j = Function.update s'.env i x j
    rw [Function.update_apply, Function.update_apply, h.env j hj]
  mem := h.mem
  slots := h.slots

/-- A value that is not in view can change. -/
theorem agree_set {i : ι} (hi : ¬ V i) (s : State ι) (x : ℕ) : Agree V S s (s.set i x) where
  env j hj := by
    have hne : j ≠ i := fun heq => hi (heq ▸ hj)
    exact (Function.update_of_ne hne x s.env).symm
  mem := rfl
  slots _ _ := rfl

variable {e e' : ι → ℕ} {I : Inst ι} {b : List (Inst ι)}

variable (W : World ι) (prev : ι)

/-- **An instruction keeps the agreement** of the states it is executed in. -/
theorem execInst_agree (he : ∀ i, V i → e i = e' i) (h : Agree V S s s') (hI : I.op.Within V S) :
    Agree V S (execInst W prev e s I) (execInst W prev e' s' I) := by
  have heval : ∀ v ∈ I.op.operands, W.eval s.env v = W.eval s'.env v :=
    fun v hv => eval_agree W h.env (hI.names v hv)
  obtain ⟨id, o⟩ := I
  cases o with
  | alloca size =>
    show Agree V S (s.set id _) (s'.set id _)
    rw [heval size List.mem_cons_self, h.mem]
    exact h.set id _
  | load ptr =>
    show Agree V S (s.set id _) (s'.set id _)
    rw [value_agree W h hI]
    exact h.set id _
  | store x ptr =>
    have hx := heval x List.mem_cons_self
    cases ptr with
    | val v =>
      have hv := heval v (List.mem_cons_of_mem _ List.mem_cons_self)
      refine ⟨h.env, ?_, h.slots⟩
      show Function.update s.mem _ _ = Function.update s'.mem _ _
      rw [h.mem, hv, hx]
    | slot t =>
      refine ⟨h.env, h.mem, fun t' ht' => ?_⟩
      show Function.update s.slots t _ t' = Function.update s'.slots t _ t'
      rw [Function.update_apply, Function.update_apply, hx, h.slots t' ht']
  | phi incoming =>
    show Agree V S (s.set id _) (s'.set id _)
    have hphi : (incoming.lookup prev).map (W.eval e) = (incoming.lookup prev).map (W.eval e') := by
      cases hl : incoming.lookup prev with
      | none => rfl
      | some v =>
        have hmem : v ∈ incoming.map Prod.snd := by
          obtain ⟨l₁, l₂, heq, -⟩ := List.lookup_eq_some_iff.mp hl
          rw [heq]
          simp
        exact congrArg some (eval_agree W he (hI.names v hmem))
    rw [hphi]
    exact h.set id _
  | call callee args =>
    have hargs : args.map (W.eval s.env) = args.map (W.eval s'.env) :=
      map_eval_agree W h.env hI.names
    rw [execInst, execInst]
    dsimp only
    rw [hargs, h.mem]
    exact ⟨(h.set id _).env, rfl, h.slots⟩
  | compute code operands =>
    show Agree V S (s.set id _) (s'.set id _)
    rw [value_agree W h hI]
    exact h.set id _
  | br operands dests => exact h
  | exit operands dests => exact h

/-- An instruction sets no value but its own. -/
theorem env_execInst_of_ne (e : ι → ℕ) (s : State ι) {j : ι} (hj : j ≠ I.id) :
    (execInst W prev e s I).env j = s.env j := by
  obtain ⟨id, o⟩ := I
  cases o with
  | store x ptr => cases ptr <;> rfl
  | br operands dests => rfl
  | exit operands dests => rfl
  | _ => exact Function.update_of_ne hj _ _

/-- An instruction changes no slot but the one it names. -/
theorem slots_execInst_of_ne (e : ι → ℕ) (s : State ι) {t : ι} (ht : I.op.slot? ≠ some t) :
    (execInst W prev e s I).slots t = s.slots t := by
  obtain ⟨id, o⟩ := I
  cases o with
  | store x ptr =>
    cases ptr with
    | val v => rfl
    | slot u => exact Function.update_of_ne (fun heq => ht (congrArg some heq.symm)) _ _
  | _ => rfl

/-- An operation whose only effect is its value. -/
def Op.isPure : Op ι → Bool
  | .load _ => true
  | .compute _ _ => true
  | _ => false

omit [DecidableEq ι] in
@[simp] theorem isPure_bimap (f : Value ι → Value κ) (g : ι → κ) (o : Op ι) :
    (o.bimap f g).isPure = o.isPure := by
  cases o with
  | load ptr | store _ ptr => cases ptr <;> rfl
  | _ => rfl

omit [DecidableEq ι] in
theorem value_of_isPure (h : I.op.isPure) : I.value = .inst I.id := by
  rw [Inst.value]
  split
  · next hop =>
    rw [hop] at h
    exact absurd h Bool.false_ne_true
  · rfl

omit [DecidableEq ι] in
theorem dests_of_isPure {o : Op ι} (h : o.isPure) : o.dests = [] := by
  cases o with
  | load ptr => rfl
  | compute code operands => rfl
  | _ => exact absurd h Bool.false_ne_true

theorem execInst_pure (e : ι → ℕ) (s : State ι) (hI : I.op.isPure) :
    execInst W prev e s I = s.set I.id (I.op.value W s) := by
  obtain ⟨id, o⟩ := I
  cases o with
  | load ptr => rfl
  | compute code operands => rfl
  | _ => exact absurd hI Bool.false_ne_true

/-- An instruction that changes nothing in view: a load or computation whose value is not, or a
    store to a slot that is not. -/
def Inst.Hidden (V S : ι → Prop) (I : Inst ι) : Prop :=
  (I.op.isPure ∧ ¬ V I.id) ∨ ∃ x t, I.op = .store x (.slot t) ∧ ¬ S t

/-- **What is not in view** leaves an agreeing state. -/
theorem execInst_hidden (e : ι → ℕ) (s : State ι) (hI : I.Hidden V S) :
    Agree V S s (execInst W prev e s I) := by
  rcases hI with ⟨hpure, hid⟩ | ⟨x, t, hop, ht⟩
  · rw [execInst_pure W prev e s hpure]
    exact agree_set hid s _
  · rw [execInst, hop]
    refine ⟨fun _ _ => rfl, rfl, fun t' ht' => ?_⟩
    exact (Function.update_of_ne (fun heq => ht (by rwa [← heq])) _ s.slots).symm

theorem execInsts_hidden (e : ι → ℕ) (h : Agree V S s s') (hb : ∀ I ∈ b, I.Hidden V S) :
    Agree V S s (execInsts W prev e s' b) := by
  induction b generalizing s' with
  | nil => exact h
  | cons I b ih =>
    exact ih (h.trans (execInst_hidden W prev e s' (hb I List.mem_cons_self)))
      fun J hJ => hb J (List.mem_cons_of_mem I hJ)

theorem slots_execInsts_of_ne (e : ι → ℕ) (s : State ι) {t : ι}
    (ht : ∀ I ∈ b, I.op.slot? ≠ some t) : (execInsts W prev e s b).slots t = s.slots t := by
  induction b generalizing s with
  | nil => rfl
  | cons I b ih =>
    have hI := slots_execInst_of_ne W prev e s (ht I List.mem_cons_self)
    exact (ih _ fun J hJ => ht J (List.mem_cons_of_mem I hJ)).trans hI

/-- **Leaving out instructions** that change nothing in view. -/
theorem execInsts_filter (he : ∀ i, V i → e i = e' i) (h : Agree V S s s') {keep : Inst ι → Bool}
    (hb : ∀ I ∈ b, I.op.Within V S) (hdrop : ∀ I ∈ b, keep I = false → I.Hidden V S) :
    Agree V S (execInsts W prev e s b) (execInsts W prev e' s' (b.filter keep)) := by
  induction b generalizing s s' with
  | nil => exact h
  | cons I b ih =>
    have hb' : ∀ J ∈ b, J.op.Within V S := fun J hJ => hb J (List.mem_cons_of_mem I hJ)
    have hdrop' : ∀ J ∈ b, keep J = false → J.Hidden V S :=
      fun J hJ => hdrop J (List.mem_cons_of_mem I hJ)
    cases hI : keep I with
    | true =>
      rw [List.filter_cons_of_pos hI]
      exact ih (execInst_agree W prev he h (hb I List.mem_cons_self)) hb' hdrop'
    | false =>
      rw [List.filter_cons_of_neg (by rw [hI]; exact Bool.false_ne_true)]
      have hhidden := execInst_hidden W prev e s (hdrop I List.mem_cons_self hI)
      exact ih (hhidden.symm.trans h) hb' hdrop'

/-- **Saving values.**  Stores to slots that are not in view, each behind the instruction whose
    value it saves, change nothing in view; at the end the slots have the values. -/
theorem execInsts_save (he : ∀ i, V i → e i = e' i) (h : Agree V S s s')
    {f : Inst ι → List (Inst ι)} {n g : ι → ι}
    (hf : ∀ I ∈ b, f I = [I] ∨ f I = [I, ⟨n I.id, .store I.value (.slot (g I.id))⟩])
    (hb : ∀ I ∈ b, I.op.Within V S) (hid : ∀ I ∈ b, V I.id) (hnodup : (b.map Inst.id).Nodup)
    (hg : Function.Injective g) (hS : ∀ i, ¬ S (g i)) :
    Agree V S (execInsts W prev e s b) (execInsts W prev e' s' (b.flatMap f)) ∧
      ∀ I ∈ b, f I ≠ [I] → (execInsts W prev e' s' (b.flatMap f)).slots (g I.id) =
        (execInsts W prev e s b).env I.id := by
  induction b using List.reverseRecOn with
  | nil => exact ⟨h, fun I hI => absurd hI List.not_mem_nil⟩
  | append_singleton b I ih =>
    have hmem : ∀ J ∈ b, J ∈ b ++ [I] := fun J hJ => List.mem_append_left _ hJ
    have hI : I ∈ b ++ [I] := List.mem_append_right _ List.mem_cons_self
    rw [List.map_append, List.nodup_append] at hnodup
    obtain ⟨hagree, hsaved⟩ := ih (fun J hJ => hf J (hmem J hJ)) (fun J hJ => hb J (hmem J hJ))
      (fun J hJ => hid J (hmem J hJ)) hnodup.1
    rw [List.flatMap_append, List.flatMap_singleton, execInsts_append, execInsts_append]
    -- what has been saved stays, and so do the values
    have hstep : Agree V S (execInsts W prev e (execInsts W prev e s b) [I])
        (execInst W prev e' (execInsts W prev e' s' (b.flatMap f)) I) :=
      execInst_agree W prev he hagree (hb I hI)
    have hslot : ∀ i, (execInst W prev e' (execInsts W prev e' s' (b.flatMap f)) I).slots (g i) =
        (execInsts W prev e' s' (b.flatMap f)).slots (g i) :=
      fun i => slots_execInst_of_ne W prev e' _ fun heq => hS i ((hb I hI).slots _ heq)
    have hne : ∀ J ∈ b, J.id ≠ I.id := fun J hJ =>
      hnodup.2.2 J.id (List.mem_map_of_mem hJ) I.id List.mem_cons_self
    have hkept : ∀ J ∈ b, f J ≠ [J] →
        (execInst W prev e' (execInsts W prev e' s' (b.flatMap f)) I).slots (g J.id) =
          (execInsts W prev e (execInsts W prev e s b) [I]).env J.id := by
      intro J hJ hfJ
      rw [hslot, hsaved J hJ hfJ]
      exact (env_execInst_of_ne W prev e _ (hne J hJ)).symm
    rcases hf I hI with hfI | hfI
    · rw [hfI]
      refine ⟨hstep, fun J hJ hfJ => ?_⟩
      rcases List.mem_append.mp hJ with hJ | hJ
      · exact hkept J hJ hfJ
      · rw [List.mem_singleton.mp hJ] at hfJ
        exact absurd hfI hfJ
    · rw [hfI]
      have hhidden : Inst.Hidden V S ⟨n I.id, .store I.value (.slot (g I.id))⟩ :=
        Or.inr ⟨_, _, rfl, hS I.id⟩
      refine ⟨hstep.trans (execInst_hidden W prev e' _ hhidden), fun J hJ hfJ => ?_⟩
      show Function.update _ (g I.id) _ (g J.id) = _
      rcases List.mem_append.mp hJ with hJ | hJ
      · rw [Function.update_of_ne fun heq => hne J hJ (hg heq)]
        exact hkept J hJ hfJ
      · rw [List.mem_singleton.mp hJ, Function.update_self, eval_value]
        exact (hstep.env I.id (hid I hI)).symm

end ExecAgree

/-! ### Functions without some instructions -/

section Filter

variable [DecidableEq ι] {V S : ι → Prop}

/-- Executions at the same place, in agreeing states. -/
structure Config.Agree (V S : ι → Prop) (k k' : Config ι) : Prop where
  prev : k.prev = k'.prev
  label : k.label = k'.label
  state : Ssa.Agree V S k.state k'.state

variable {k k' : Config ι}

theorem Config.Agree.behind (h : k.Agree V S k') (W : World ι) {b : List (Inst ι)}
    {keep : Inst ι → Bool} (hb : ∀ I ∈ b, I.op.Within V S)
    (hdrop : ∀ I ∈ b, keep I = false → I.Hidden V S) :
    Ssa.Agree V S (k.behind W b) (k'.behind W (b.filter keep)) := by
  rw [Config.behind, Config.behind, h.prev]
  exact execInsts_filter W k'.prev h.state.env h.state hb hdrop

/-- A block without some of its instructions does the same. -/
theorem step_filter (W : World ι) {F F' : Func ι} {keep : Inst ι → Bool} {k₁ : Config ι}
    (h : k.Agree V S k') (hblock : F'.block k.label = (F.block k.label).filter keep)
    (hb : ∀ I ∈ F.block k.label, I.op.Within V S)
    (hdrop : ∀ I ∈ F.block k.label, keep I = false → I.Hidden V S) (hstep : F.step W k = some k₁) :
    ∃ k₁', F'.step W k' = some k₁' ∧ k₁.Agree V S k₁' := by
  have hblock' : F'.block k'.label = (F.block k.label).filter keep := h.label ▸ hblock
  have hagree := h.behind W hb hdrop
  rw [← hblock'] at hagree
  cases ht : (F.block k.label).getLast? with
  | none =>
    rw [Func.step, ht] at hstep
    cases hstep
  | some t =>
    rw [step_eq W ht, Option.map_eq_some_iff] at hstep
    obtain ⟨l, hl, rfl⟩ := hstep
    have hmem := List.mem_of_getLast? ht
    -- a terminator stays
    have hkeep : keep t = true := by
      by_contra hfalse
      rcases hdrop t hmem (Bool.eq_false_iff.mpr hfalse) with ⟨hpure, -⟩ | ⟨x, s, hop, -⟩
      · rw [next, dests_of_isPure hpure] at hl
        cases hl
      · rw [next, hop] at hl
        cases hl
    obtain ⟨b, hsplit⟩ := List.getLast?_eq_some_iff.mp ht
    have hlast : (F'.block k'.label).getLast? = some t := by
      rw [hblock', hsplit, List.filter_append, List.filter_cons_of_pos hkeep]
      exact List.getLast?_concat
    refine ⟨⟨t.id, l, k'.behind W (F'.block k'.label)⟩, ?_, rfl, rfl, hagree⟩
    rw [step_eq W hlast, ← next_agree W hagree (hb t hmem), hl]
    rfl

/-- **A function without some instructions** does the same, outside of `avoid`. -/
theorem walk_filter (W : World ι) {F F' : Func ι} {avoid : ι → Prop} (keep : Inst ι → Bool)
    (hblock : ∀ l, ¬ avoid l → F.block l ≠ [] → F'.block l = (F.block l).filter keep)
    (hb : ∀ l, ¬ avoid l → ∀ I ∈ F.block l, I.op.Within V S)
    (hdrop : ∀ l, ¬ avoid l → ∀ I ∈ F.block l, keep I = false → I.Hidden V S) {k₁ : Config ι}
    (h : k.Agree V S k') (hwalk : F.Walk W avoid k k₁) :
    ∃ k₁', F'.Walk W avoid k' k₁' ∧ k₁.Agree V S k₁' := by
  induction hwalk with
  | refl => exact ⟨k', Relation.ReflTransGen.refl, h⟩
  | @tail k₂ k₃ _ hstep ih =>
    obtain ⟨hnot, hstep⟩ := hstep
    obtain ⟨k₁', hwalk', hagree⟩ := ih
    have hne : F.block k₂.label ≠ [] := by
      intro hnil
      rw [Func.step, hnil] at hstep
      cases hstep
    obtain ⟨k₂', hstep', hagree'⟩ :=
      step_filter W hagree (hblock _ hnot hne) (hb _ hnot) (hdrop _ hnot) hstep
    exact ⟨k₂', hwalk'.tail ⟨hagree.label ▸ hnot, hstep'⟩, hagree'⟩

end Filter

/-! ### Order of definitions and uses -/

/-- The control flow between the blocks. -/
def Func.cfg (F : Func ι) : Cfg.Graph ι where
  entry := F.entry
  edge l l' := ∃ t ∈ (F.block l).getLast?, l' ∈ t.op.dests

/-- **The instruction `m` comes before all its uses**: on every path from the entry to an
    instruction that has it as an operand. -/
def Func.ComesFirst (F : Func ι) (m : ι) : Prop :=
  ∀ path l p J q, F.cfg.IsPath (path ++ [l]) → F.block l = p ++ J :: q →
    (∃ v ∈ J.op.operands, v.name? = some m) → ∃ I ∈ path.flatMap F.block ++ p, I.id = m

/-- In a block, `m` comes before its uses. -/
def FirstIn (m : ι) (b : List (Inst ι)) : Prop :=
  ∀ p J q, b = p ++ J :: q → (∃ v ∈ J.op.operands, v.name? = some m) → ∃ I ∈ p, I.id = m

theorem comesFirst_of_firstIn {F : Func ι}
    (h : ∀ path l, F.cfg.IsPath (path ++ [l]) → FirstIn m (F.block l)) : F.ComesFirst m := by
  intro path l p J q hpath hblock huse
  obtain ⟨I, hI, hid⟩ := h path l hpath p J q hblock huse
  exact ⟨I, List.mem_append_right _ hI, hid⟩

variable {b : List (Inst ι)}

theorem firstIn_of_unused (h : ∀ J ∈ b, ∀ v ∈ J.op.operands, v.name? ≠ some m) : FirstIn m b := by
  rintro p J q rfl ⟨v, hv, hname⟩
  exact absurd hname (h J (List.mem_append_right _ List.mem_cons_self) v hv)

theorem FirstIn.append {b' : List (Inst ι)} (h : FirstIn m b) (h' : FirstIn m b') :
    FirstIn m (b ++ b') := by
  intro p J q hsplit huse
  rcases List.append_eq_append_iff.mp hsplit with ⟨p', rfl, hrest⟩ | ⟨c, rfl, hrest⟩
  · obtain ⟨I, hI, hid⟩ := h' p' J q hrest huse
    exact ⟨I, List.mem_append_right _ hI, hid⟩
  · cases c with
    | nil =>
      obtain ⟨I, hI, -⟩ := h' [] J q hrest.symm huse
      exact absurd hI List.not_mem_nil
    | cons J' c =>
      obtain ⟨rfl, -⟩ := List.cons.inj hrest
      exact h p J c rfl huse

/-- The instruction itself comes first. -/
theorem firstIn_cons_self {I : Inst ι} (h : ∀ v ∈ I.op.operands, v.name? ≠ some I.id) :
    FirstIn I.id (I :: b) := by
  rintro p J q hsplit ⟨v, hv, hname⟩
  cases p with
  | nil =>
    obtain ⟨rfl, -⟩ := List.cons.inj hsplit
    exact absurd hname (h v hv)
  | cons I' p =>
    obtain ⟨rfl, -⟩ := List.cons.inj hsplit
    exact ⟨I, List.mem_cons_self, rfl⟩

theorem firstIn_flatMap {α : Type} {f : α → List (Inst ι)} {as : List α}
    (h : ∀ a ∈ as, FirstIn m (f a)) : FirstIn m (as.flatMap f) := by
  induction as with
  | nil => exact firstIn_of_unused fun J hJ => absurd hJ List.not_mem_nil
  | cons a as ih =>
    rw [List.flatMap_cons]
    exact (h a List.mem_cons_self).append (ih fun a' ha' => h a' (List.mem_cons_of_mem a ha'))

end Ssa
