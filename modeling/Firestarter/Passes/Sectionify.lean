import Mathlib.Data.List.Basic

namespace Firestarter.Passes.Sectionify

/-!
# Sections by regular expressions (`SectionifyPass.cpp`)

The pass moves global variables and functions into sections.  Its rules are pairs of a regular
expression and a section, in the order of the options; the section `NULL` stands for none.  With a
prefix option it also renames what it visits.

The search through the rules ends at the first rule that did something: a rule with `NULL` never
ends it, and with a prefix the first rule always does.

* `sectionifyFromRegex`, `sectionify`, `runOnModule`: the code;
* `sectionify_of_no_prefixOpt`, `sectionify_of_prefixOpt`: where the search ends;
* `first_rule_decides_iff`: when the first matching rule decides.
-/

/-! ### Options -/

abbrev Name := List Char

/-- The regular expressions: which texts are valid ones, and which names they match. -/
structure Regexes where
  isValid : Name → Bool
  isMatch : Name → Name → Bool

structure Options where
  sectionMapOpt : List Name
  functionSectionMapOpt : List Name
  dataSectionMapOpt : List Name
  prefixOpt : Name
  sectionifyExternalFunctions : Bool
  sectionifyExternalData : Bool
  sectionifySkipReadOnlyData : Bool
  sectionifyTLSData : Bool
  sectionifyNoOverride : Bool

/-- `"NULL"` -/
def null : Name := ['N', 'U', 'L', 'L']

/-- `parseStringMapOpt`: the pairs in the order of the option. -/
def parseStringMapOpt (stringList : List Name) : Option (List (Name × Name)) :=
  stringList.mapM fun token =>
    match token.splitOn '/' with
    | [key, value] => some (key, value)
    | _ => none

/-- The section that the map has for a key: `insert` keeps the first one. -/
def sectionOf (pairs : List (Name × Name)) (key : Name) : Name :=
  match pairs.find? (fun p => p.1 = key) with
  | some p => p.2
  | none => []

/-- `initRegexMap`: the rules, each with the section of its text in the map. -/
def initRegexMap (rx : Regexes) (pairs : List (Name × Name)) : Option (List (Name × Name)) :=
  if pairs.all fun p => rx.isValid p.1 then some (pairs.map fun p => (p.1, sectionOf pairs p.1))
  else none

/-- `parseAndInitRegexMap`; `none` when the pass exits. -/
def parseAndInitRegexMap (rx : Regexes) (stringListOpt : List Name) :
    Option (List (Name × Name)) :=
  (parseStringMapOpt stringListOpt).bind (initRegexMap rx)

/-! ### The module -/

inductive Linkage
  | common
  | weakAny
  | other
  deriving DecidableEq, Repr

/-- A global variable or a function; no section is the empty text. -/
structure Global where
  name : Name
  sectionName : Name
  linkage : Linkage
  isFunction : Bool
  isDeclaration : Bool
  isConstant : Bool
  isThreadLocal : Bool
  deriving DecidableEq, Repr

/-- A module; `name` is what `PassUtil::getModuleName` answers. -/
structure Module where
  name : Name
  globalList : List Global
  functionList : List Global
  globals_are : ∀ g ∈ globalList, g.isFunction = false
  functions_are : ∀ f ∈ functionList, f.isFunction = true

/-- The symbol table of a module: `setName` appends something to a name that is taken. -/
structure SymbolTable where
  setName : List Name → Name → Name
  suffix : ∀ taken name, ∃ s, setName taken name = name ++ s

/-! ### The pass -/

/-- What the rules are applied with: the options, and the name of the module. -/
structure Env where
  rx : Regexes
  opts : Options
  moduleName : Name

/-- `prefixString`, for a prefix option that is given. -/
def Env.prefixString (env : Env) : Name :=
  let moduleName :=
    if env.opts.prefixOpt = ['%', 'M', 'O', 'D', 'U', 'L', 'E', '_', 'N', 'A', 'M', 'E', '%'] then
      env.moduleName
    else []
  if moduleName ≠ [] then moduleName else env.opts.prefixOpt

/-- `trgSection` -/
def Global.trgSection (g : Global) (sect : Name) : Name :=
  if !g.isFunction && g.isConstant then sect ++ ['_', 'r', 'o'] else sect

/-- The value in a section. -/
def Global.setSection (g : Global) (sect : Name) : Global :=
  { g with
    sectionName := g.trgSection sect
    linkage := if g.linkage = .common then .weakAny else g.linkage }

/-- `sectionifyFromRegex`: whether the rule did something, and the value behind it. -/
def sectionifyFromRegex (env : Env) (setName : Name → Name) (value : Global) (regex sect : Name) :
    Bool × Global :=
  let r :=
    if sect ≠ null ∧ env.rx.isMatch regex value.name then (true, value.setSection sect)
    else (false, value)
  if env.opts.prefixOpt ≠ [] then
    (true, { r.2 with name := setName (env.prefixString ++ r.2.name) })
  else r

/-- `sectionify` -/
def sectionify (env : Env) (setName : Name → Name) (value : Global) :
    List (Name × Name) → Bool × Global
  | [] => (false, value)
  | (regex, sect) :: rules =>
    let r := sectionifyFromRegex env setName value regex sect
    if r.1 then (true, r.2) else sectionify env setName r.2 rules

/-- The values that the loops of `runOnModule` pass over. -/
def skips (opts : Options) (g : Global) : Bool :=
  if g.isFunction then
    (g.isDeclaration && !opts.sectionifyExternalFunctions) ||
      (g.sectionName ≠ [] && opts.sectionifyNoOverride) ||
      ['l', 'l', 'v', 'm', '.'].isPrefixOf g.name
  else
    (g.isDeclaration && !opts.sectionifyExternalData) ||
      (g.isConstant && opts.sectionifySkipReadOnlyData) ||
      (g.isThreadLocal && !opts.sectionifyTLSData) ||
      (g.sectionName ≠ [] && opts.sectionifyNoOverride) ||
      ['l', 'l', 'v', 'm', '.'].isPrefixOf g.name

/-- One round of a loop. -/
def visit (env : Env) (setName : Name → Name) (rules : List (Name × Name)) (g : Global) :
    Bool × Global :=
  if skips env.opts g then (false, g) else sectionify env setName g rules

/-- A loop over values: whether one was sectionified, the values behind it, and the names in use. -/
def visitAll (env : Env) (st : SymbolTable) (rules : List (Name × Name)) :
    List Name → List Global → Bool × List Global × List Name
  | taken, [] => (false, [], taken)
  | taken, g :: gs =>
    let r := visit env (st.setName taken) rules g
    let rest := visitAll env st rules (r.2.name :: taken.erase g.name) gs
    (r.1 || rest.1, r.2 :: rest.2.1, rest.2.2)

/-- The options of the two sorts of values: their own ones first. -/
def Options.dataOpts (opts : Options) : List Name := opts.dataSectionMapOpt ++ opts.sectionMapOpt

def Options.functionOpts (opts : Options) : List Name :=
  opts.functionSectionMapOpt ++ opts.sectionMapOpt

/-- `runOnModule`: whether something was sectionified, the global variables and the functions. -/
def runOnModule (rx : Regexes) (st : SymbolTable) (opts : Options) (M : Module) :
    Option (Bool × List Global × List Global) := do
  let functionRules ← parseAndInitRegexMap rx opts.functionOpts
  let dataRules ← parseAndInitRegexMap rx opts.dataOpts
  let env : Env := ⟨rx, opts, M.name⟩
  let taken := (M.globalList ++ M.functionList).map Global.name
  let data := visitAll env st dataRules taken M.globalList
  let functions := visitAll env st functionRules data.2.2 M.functionList
  pure (data.1 || functions.1, data.2.1, functions.2.1)

/-! ### Where the search ends -/

/-- **Without a prefix** it ends at the first rule that matches and is not `NULL`. -/
theorem sectionify_of_no_prefixOpt {env : Env} (hno : env.opts.prefixOpt = [])
    (setName : Name → Name) (g : Global) (rules : List (Name × Name)) :
    (sectionify env setName g rules).2 =
      match rules.find? (fun r => r.2 ≠ null ∧ env.rx.isMatch r.1 g.name) with
      | some r => g.setSection r.2
      | none => g := by
  induction rules with
  | nil => rfl
  | cons r rules ih =>
    rw [List.find?_cons]
    by_cases hr : r.2 ≠ null ∧ env.rx.isMatch r.1 g.name
    · simp [sectionify, sectionifyFromRegex, hno, hr]
    · simp only [sectionify, sectionifyFromRegex, hno, hr, ne_eq, not_true_eq_false, if_false,
        decide_false, Bool.false_eq_true]
      exact ih

/-- **With a prefix** it ends at the first rule. -/
theorem sectionify_of_prefixOpt {env : Env} (hpre : env.opts.prefixOpt ≠ [])
    (setName : Name → Name) (g : Global) (r : Name × Name) (rules : List (Name × Name)) :
    (sectionify env setName g (r :: rules)).2 =
      { (if r.2 ≠ null ∧ env.rx.isMatch r.1 g.name then g.setSection r.2 else g) with
        name := setName (env.prefixString ++ g.name) } := by
  by_cases hr : r.2 ≠ null ∧ env.rx.isMatch r.1 g.name
  · simp [sectionify, sectionifyFromRegex, hpre, hr, Global.setSection]
  · simp only [sectionify, sectionifyFromRegex, hpre, hr, if_true, if_false, ne_eq,
      not_false_eq_true]

/-- A loop visits its values one by one, each with the names in use then. -/
theorem visitAll_getElem? (env : Env) (st : SymbolTable) (rules : List (Name × Name))
    (taken : List Name) (gs : List Global) {i : ℕ} {g : Global} (hi : gs[i]? = some g) :
    ∃ taken', (visitAll env st rules taken gs).2.1[i]? =
      some (visit env (st.setName taken') rules g).2 := by
  induction gs generalizing taken i with
  | nil => cases hi
  | cons g' gs ih =>
    cases i with
    | zero =>
      obtain rfl := Option.some.inj hi
      exact ⟨taken, rfl⟩
    | succ i => exact ih _ hi

/-! ### The first matching rule -/

/-- The first pair, in the order of the options, that matches the name of a value. -/
def firstMatch (env : Env) (pairs : List (Name × Name)) (g : Global) : Option (Name × Name) :=
  pairs.find? fun p => env.rx.isMatch p.1 g.name

/-- **The section that the first matching pair gives a value**: none if the pair has `NULL`. -/
def expectedSection (env : Env) (pairs : List (Name × Name)) (g : Global) : Name :=
  match firstMatch env pairs g with
  | some p => if p.2 = null then g.sectionName else g.trgSection p.2
  | none => g.sectionName

/-- **The first matching rule decides** about the section, and the prefix is added once; behind it
    may stand what the symbol table appends to names that are taken. -/
structure FirstRuleDecides (env : Env) (pairs : List (Name × Name)) (g g' : Global) : Prop where
  sectionName : g'.sectionName = expectedSection env pairs g
  name : if env.opts.prefixOpt = [] then g'.name = g.name
    else ∃ s, g'.name = env.prefixString ++ g.name ++ s

/-- A pair that has no effect on a value: it has `NULL`, or the value is in its section. -/
def Quiet (g : Global) (p : Name × Name) : Prop := p.2 = null ∨ g.trgSection p.2 = g.sectionName

/-- **The search gets to the first matching rule.** A prefix asks for a value that is not passed
    over and for a rule.  The first matching pair has no effect on a value that is passed over; it
    is the first of all pairs, or has no effect, when there is a prefix; and without one, if it has
    `NULL`, the first matching pair with a section in the map has the one the value is in. -/
structure FirstRuleReached (env : Env) (pairs : List (Name × Name)) (g : Global) : Prop where
  renamed : env.opts.prefixOpt = [] ∨ (skips env.opts g = false ∧ pairs ≠ [])
  skipped : skips env.opts g = true → ∀ p, firstMatch env pairs g = some p → Quiet g p
  noPrefix : skips env.opts g = false → env.opts.prefixOpt = [] →
    ∀ p, firstMatch env pairs g = some p → p.2 = null →
      ∀ q, pairs.find? (fun q => sectionOf pairs q.1 ≠ null ∧ env.rx.isMatch q.1 g.name) = some q →
        g.trgSection (sectionOf pairs q.1) = g.sectionName
  withPrefix : skips env.opts g = false → env.opts.prefixOpt ≠ [] →
    ∀ p, firstMatch env pairs g = some p → pairs.head? = some p ∨ Quiet g p

section Reached

variable {env : Env} {pairs : List (Name × Name)} {g : Global}

/-- The first pair that matches is the first one with its text. -/
theorem sectionOf_firstMatch {p : Name × Name} (h : firstMatch env pairs g = some p) :
    sectionOf pairs p.1 = p.2 := by
  obtain ⟨hmatch, front, rest, rfl, hfront⟩ := List.find?_eq_some_iff_append.mp h
  have hfind : (front ++ p :: rest).find? (fun q => q.1 = p.1) = some p := by
    rw [List.find?_eq_some_iff_append]
    refine ⟨decide_eq_true rfl, front, rest, rfl, fun q hq => ?_⟩
    rw [Bool.not_eq_true', decide_eq_false_iff_not]
    intro heq
    have hno := hfront q hq
    rw [heq, hmatch] at hno
    cases hno
  unfold sectionOf
  rw [hfind]

theorem sectionOf_head (r : Name × Name) (rest : List (Name × Name)) :
    sectionOf (r :: rest) r.1 = r.2 := by
  simp [sectionOf]

/-- The section stays when no pair that matches first has an effect. -/
theorem self_eq_expectedSection_iff :
    g.sectionName = expectedSection env pairs g ↔
      ∀ p, firstMatch env pairs g = some p → Quiet g p := by
  unfold expectedSection Quiet
  cases h : firstMatch env pairs g with
  | none => simp
  | some p =>
    simp only [Option.some.injEq, forall_eq']
    by_cases hp : p.2 = null
    · simp only [hp, if_true, true_or]
    · simp only [hp, if_false, false_or, eq_comm]

/-- The section without a prefix. -/
theorem sectionify_noPrefix_iff (hno : env.opts.prefixOpt = []) (setName : Name → Name) :
    (sectionify env setName g (pairs.map fun p => (p.1, sectionOf pairs p.1))).2.sectionName =
        expectedSection env pairs g ↔
      ∀ p, firstMatch env pairs g = some p → p.2 = null →
        ∀ q, pairs.find? (fun q => sectionOf pairs q.1 ≠ null ∧ env.rx.isMatch q.1 g.name) =
          some q → g.trgSection (sectionOf pairs q.1) = g.sectionName := by
  rw [sectionify_of_no_prefixOpt hno, List.find?_map]
  simp only [Function.comp_def]
  unfold expectedSection
  cases hfirst : firstMatch env pairs g with
  | none =>
    -- nothing matches
    have hnone : pairs.find? (fun q => sectionOf pairs q.1 ≠ null ∧ env.rx.isMatch q.1 g.name) =
        none := by
      rw [List.find?_eq_none]
      intro q hq hmatch
      exact List.find?_eq_none.mp hfirst q hq (of_decide_eq_true hmatch).2
    rw [hnone]
    simp
  | some p =>
    by_cases hp : p.2 = null
    · cases hfind : pairs.find? (fun q =>
        sectionOf pairs q.1 ≠ null ∧ env.rx.isMatch q.1 g.name) with
      | none => simp [hp]
      | some q => simp [hp, Global.setSection]
    · -- the search ends at the first match
      have hfind : pairs.find? (fun q =>
          sectionOf pairs q.1 ≠ null ∧ env.rx.isMatch q.1 g.name) = some p := by
        obtain ⟨hmatch, front, rest, hpairs, hfront⟩ := List.find?_eq_some_iff_append.mp hfirst
        rw [List.find?_eq_some_iff_append]
        refine ⟨?_, front, rest, hpairs, fun q hq => ?_⟩
        · rw [sectionOf_firstMatch hfirst]
          exact decide_eq_true ⟨hp, hmatch⟩
        · have hno := hfront q hq
          rw [Bool.not_eq_true'] at hno
          simp [hno]
      rw [hfind]
      simp [hp, Global.setSection, sectionOf_firstMatch hfirst]

/-- The section with a prefix, when there is a rule. -/
theorem sectionify_withPrefix_iff (hpre : env.opts.prefixOpt ≠ []) (setName : Name → Name)
    (hne : pairs ≠ []) :
    (sectionify env setName g (pairs.map fun p => (p.1, sectionOf pairs p.1))).2.sectionName =
        expectedSection env pairs g ↔
      ∀ p, firstMatch env pairs g = some p → pairs.head? = some p ∨ Quiet g p := by
  obtain ⟨r, rest, rfl⟩ := List.exists_cons_of_ne_nil hne
  rw [List.map_cons, sectionify_of_prefixOpt hpre, sectionOf_head]
  by_cases hmatch : env.rx.isMatch r.1 g.name = true
  · -- the first rule is the first one that matches
    have hfirst : firstMatch env (r :: rest) g = some r := by
      rw [firstMatch, List.find?_cons, hmatch]
    simp only [expectedSection, hfirst, hmatch, and_true, List.head?_cons, Option.some.injEq]
    refine iff_of_true ?_ (fun p hp => .inl hp)
    by_cases hr : r.2 = null
    · simp [hr]
    · simp [hr, Global.setSection]
  · rw [if_neg fun h => hmatch h.2]
    show g.sectionName = _ ↔ _
    rw [self_eq_expectedSection_iff]
    refine forall_congr' fun p => imp_congr_right fun hp => ?_
    -- the first rule does not match, so it is not the one that matches first
    have hhead : (r :: rest).head? ≠ some p := by
      intro heq
      obtain rfl := Option.some.inj heq
      unfold firstMatch at hp
      have hself := List.find?_some hp
      exact hmatch hself
    exact ⟨.inr, fun h => h.resolve_left hhead⟩

/-- The prefix is not empty when the option is given. -/
theorem prefixString_ne_nil (hpre : env.opts.prefixOpt ≠ []) : env.prefixString ≠ [] := by
  have hor (moduleName : Name) :
      (if moduleName ≠ [] then moduleName else env.opts.prefixOpt) ≠ [] := by
    split
    · assumption
    · exact hpre
  exact hor _

/-- A value that keeps its name has not got a prefix. -/
theorem ne_prefixed (hpre : env.opts.prefixOpt ≠ []) (s : Name) :
    g.name ≠ env.prefixString ++ g.name ++ s := by
  intro heq
  have hlen := congrArg List.length heq
  have hpos := List.length_pos_of_ne_nil (prefixString_ne_nil hpre)
  rw [List.length_append, List.length_append] at hlen
  omega

/-- The name behind the search. -/
theorem sectionify_name_noPrefix (hno : env.opts.prefixOpt = []) (setName : Name → Name)
    (rules : List (Name × Name)) : (sectionify env setName g rules).2.name = g.name := by
  rw [sectionify_of_no_prefixOpt hno]
  split <;> rfl

/-- **One value**: what the round of a loop leaves is what the first matching pair asks for exactly
    if the search gets to that pair. -/
theorem visit_decides_iff (st : SymbolTable) (taken : List Name) :
    FirstRuleDecides env pairs g
        (visit env (st.setName taken) (pairs.map fun p => (p.1, sectionOf pairs p.1)) g).2 ↔
      FirstRuleReached env pairs g := by
  unfold visit
  cases hskip : skips env.opts g with
  | true =>
    rw [if_pos rfl]
    constructor
    · intro h
      have hno : env.opts.prefixOpt = [] := by
        by_contra hpre
        have hname := h.name
        rw [if_neg hpre] at hname
        obtain ⟨s, hs⟩ := hname
        exact ne_prefixed hpre s hs
      exact ⟨.inl hno, fun _ => self_eq_expectedSection_iff.mp h.sectionName,
        fun h => absurd (hskip.symm.trans h) (by decide),
        fun h => absurd (hskip.symm.trans h) (by decide)⟩
    · intro h
      have hno : env.opts.prefixOpt = [] :=
        h.renamed.resolve_right fun hr => absurd (hskip.symm.trans hr.1) (by decide)
      exact ⟨self_eq_expectedSection_iff.mpr (h.skipped hskip), by rw [if_pos hno]⟩
  | false =>
    rw [if_neg Bool.false_ne_true]
    have hnot : skips env.opts g ≠ true := by rw [hskip]; exact Bool.false_ne_true
    by_cases hno : env.opts.prefixOpt = []
    · constructor
      · intro h
        exact ⟨.inl hno, fun hs => absurd hs hnot,
          fun _ _ => (sectionify_noPrefix_iff hno _).mp h.sectionName,
          fun _ hpre => absurd hno hpre⟩
      · intro h
        exact ⟨(sectionify_noPrefix_iff hno _).mpr (h.noPrefix hskip hno),
          by rw [if_pos hno, sectionify_name_noPrefix hno]⟩
    · constructor
      · intro h
        -- without a rule nothing is renamed
        have hne : pairs ≠ [] := by
          rintro rfl
          have hname := h.name
          rw [if_neg hno] at hname
          obtain ⟨s, hs⟩ := hname
          exact ne_prefixed hno s hs
        exact ⟨.inr ⟨hskip, hne⟩, fun hs => absurd hs hnot, fun _ hno' => absurd hno' hno,
          fun _ _ => (sectionify_withPrefix_iff hno _ hne).mp h.sectionName⟩
      · intro h
        obtain ⟨-, hne⟩ := h.renamed.resolve_left hno
        refine ⟨(sectionify_withPrefix_iff hno _ hne).mpr (h.withPrefix hskip hno), ?_⟩
        obtain ⟨r, rest, rfl⟩ := List.exists_cons_of_ne_nil hne
        rw [if_neg hno, List.map_cons, sectionify_of_prefixOpt hno]
        exact st.suffix taken _

end Reached

/-! ### The pass -/

/-- The rules of an option that is accepted. -/
theorem parseAndInitRegexMap_eq {rx : Regexes} {opt : List Name} {pairs rules : List (Name × Name)}
    (hpairs : parseStringMapOpt opt = some pairs) (h : parseAndInitRegexMap rx opt = some rules) :
    rules = pairs.map fun p => (p.1, sectionOf pairs p.1) := by
  rw [parseAndInitRegexMap, hpairs, Option.bind_some, initRegexMap] at h
  split at h
  · exact (Option.some.inj h).symm
  · cases h

/-- **The first matching rule decides** about a global variable or a function exactly if the search
    gets to that rule, for every module and all options. -/
theorem first_rule_decides_iff (rx : Regexes) (st : SymbolTable) (opts : Options) (M : Module)
    (dataPairs functionPairs : List (Name × Name)) {r : Bool × List Global × List Global}
    (hdata : parseStringMapOpt opts.dataOpts = some dataPairs)
    (hfunction : parseStringMapOpt opts.functionOpts = some functionPairs)
    (hrun : runOnModule rx st opts M = some r) :
    (∀ (i : ℕ) (g : Global), M.globalList[i]? = some g →
      ∃ g', r.2.1[i]? = some g' ∧ (FirstRuleDecides ⟨rx, opts, M.name⟩ dataPairs g g' ↔
        FirstRuleReached ⟨rx, opts, M.name⟩ dataPairs g)) ∧
    ∀ (i : ℕ) (f : Global), M.functionList[i]? = some f →
      ∃ f', r.2.2[i]? = some f' ∧ (FirstRuleDecides ⟨rx, opts, M.name⟩ functionPairs f f' ↔
        FirstRuleReached ⟨rx, opts, M.name⟩ functionPairs f) := by
  unfold runOnModule at hrun
  cases hfr : parseAndInitRegexMap rx opts.functionOpts with
  | none =>
    rw [hfr] at hrun
    cases hrun
  | some functionRules =>
    cases hdr : parseAndInitRegexMap rx opts.dataOpts with
    | none =>
      rw [hfr, hdr] at hrun
      cases hrun
    | some dataRules =>
      rw [hfr, hdr] at hrun
      obtain rfl := Option.some.inj hrun
      have hdr := parseAndInitRegexMap_eq hdata hdr
      have hfr := parseAndInitRegexMap_eq hfunction hfr
      subst hdr hfr
      constructor
      · intro i g hi
        obtain ⟨taken, h⟩ := visitAll_getElem? ⟨rx, opts, M.name⟩ st
          (dataPairs.map fun p => (p.1, sectionOf dataPairs p.1)) _ M.globalList hi
        exact ⟨_, h, visit_decides_iff st taken⟩
      · intro i f hi
        obtain ⟨taken, h⟩ := visitAll_getElem? ⟨rx, opts, M.name⟩ st
          (functionPairs.map fun p => (p.1, sectionOf functionPairs p.1)) _ M.functionList hi
        exact ⟨_, h, visit_decides_iff st taken⟩

/-! ### Small modules -/

/-- Texts without special characters, which match the names they occur in. -/
def literals : Regexes where
  isValid _ := true
  isMatch r n := (List.range (n.length + 1)).any fun i => r.isPrefixOf (n.drop i)

/-- A symbol table without clashes. -/
def noClash : SymbolTable := ⟨fun _ name => name, fun _ _ => ⟨[], by simp⟩⟩

/-- A global variable without a section. -/
def variableAb : Global := ⟨['a', 'b'], [], .other, false, false, false, false⟩

def moduleAb : Module := ⟨['m'], [variableAb], [], by decide, by decide⟩

/-- Rules for the data only. -/
def dataRules (rules : List Name) (prefixOpt : Name) : Options :=
  ⟨[], [], rules, prefixOpt, false, false, false, false, false⟩

/-- Of the rules `x/T` and `a/S` the second is the first that matches. -/
theorem first_rule_decides_ab :
    FirstRuleDecides ⟨literals, dataRules [['x', '/', 'T'], ['a', '/', 'S']] [], ['m']⟩
      [(['x'], ['T']), (['a'], ['S'])] variableAb { variableAb with sectionName := ['S'] } := by
  obtain ⟨g', hg', hiff⟩ := (first_rule_decides_iff literals noClash
    (dataRules [['x', '/', 'T'], ['a', '/', 'S']] []) moduleAb [(['x'], ['T']), (['a'], ['S'])] []
    (r := (true, [{ variableAb with sectionName := ['S'] }], []))
    (by decide) (by decide) (by decide)).1 0 variableAb rfl
  obtain rfl := Option.some.inj hg'
  refine hiff.mpr ⟨.inl rfl, fun h => absurd h (by decide), fun _ _ p hp hnull => ?_,
    fun _ h => absurd rfl h⟩
  have hfirst : firstMatch ⟨literals, dataRules [['x', '/', 'T'], ['a', '/', 'S']] [], ['m']⟩
      [(['x'], ['T']), (['a'], ['S'])] variableAb = some (['a'], ['S']) := by decide
  obtain rfl := Option.some.inj (hp.symm.trans hfirst)
  exact absurd hnull (by decide)

/-- After `a/NULL` the search goes on to `ab/S`; with the prefix `p_` it ends at `x/S`, which does
    not match, and does not get to `ab/T`. -/
theorem first_rule_not_decides :
    runOnModule literals noClash
        (dataRules [['a', '/', 'N', 'U', 'L', 'L'], ['a', 'b', '/', 'S']] []) moduleAb =
      some (true, [{ variableAb with sectionName := ['S'] }], []) ∧
      expectedSection ⟨literals, dataRules [] [], ['m']⟩ [(['a'], null), (['a', 'b'], ['S'])]
        variableAb = [] ∧
      runOnModule literals noClash (dataRules [['x', '/', 'S'], ['a', 'b', '/', 'T']] ['p', '_'])
        moduleAb = some (true, [{ variableAb with name := ['p', '_', 'a', 'b'] }], []) ∧
      expectedSection ⟨literals, dataRules [] ['p', '_'], ['m']⟩
        [(['x'], ['S']), (['a', 'b'], ['T'])] variableAb = ['T'] := by
  decide

end Firestarter.Passes.Sectionify
