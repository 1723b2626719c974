import Lisplet.Evaluation.Expansion
import Lisplet.Proofs.Equality.Terms
/-!
# What a rule matches

The rows of terms that a rule expands are those that come out of its patterns by putting terms for the variables, up to
sameness of terms, where every variable stands for the same term wherever it occurs. Main statement: the expander finds such
an assignment if there is one, no two of them differ, and the expansion is the template under it (`expandRule_exact`).

The expander goes through the patterns once and keeps what it has found. One lemma says what this means for an assignment
that is given beforehand (`succeeds_matchTerm`): the match succeeds without finding anything the assignment disagrees with if
and only if the pattern under the assignment is the same as the term.
-/
namespace Lisplet

/-! ## Variables and assignments -/

namespace Term

/-- The names of the symbols among the nodes of a term. -/
def symbolNames (nodes : List Code) : List String := nodes.filterMap symbol?

mutual

/-- The variables of a pattern of the macro `name`: the symbols other than `name` that are outside marked forms and format
strings. -/
def patternVars (name : String) : Code → List String
  | .symbol _ x => if x = name then [] else [x]
  | .list _ ps => patternVarsAll name ps
  | _ => []
termination_by structural p => p

/-- The variables of a row of patterns. -/
def patternVarsAll (name : String) : List Code → List String
  | [] => []
  | p :: ps => patternVars name p ++ patternVarsAll name ps
termination_by structural ps => ps

end

mutual

/-- The symbols within the marked forms and the format strings of a pattern. -/
def enclosed : Code → List String
  | .list _ ps => enclosedAll ps
  | .marked _ _ t => symbolNames t.nodes
  | .format _ parts => symbolNames (Part.nodesAll parts)
  | _ => []
termination_by structural p => p

/-- The symbols within the marked forms and the format strings of a row of patterns. -/
def enclosedAll : List Code → List String
  | [] => []
  | p :: ps => enclosed p ++ enclosedAll ps
termination_by structural ps => ps

end

mutual

/-- A term with terms for its variables, everywhere in it and all at once. -/
def assign (vars : List String) (σ : String → Code) : Code → Code
  | .symbol pos x => if x ∈ vars then σ x else .symbol pos x
  | .list pos ts => .list pos (assignAll vars σ ts)
  | .marked pos m t => .marked pos m (assign vars σ t)
  | .format pos ps => .format pos (assignParts vars σ ps)
  | t => t
termination_by structural t => t

/-- A row of terms with terms for their variables. -/
def assignAll (vars : List String) (σ : String → Code) : List Code → List Code
  | [] => []
  | t :: ts => assign vars σ t :: assignAll vars σ ts
termination_by structural ts => ts

/-- The parts of a format string with terms for their variables. -/
def assignParts (vars : List String) (σ : String → Code) : List (Part Value) → List (Part Value)
  | [] => []
  | .text s :: ps => .text s :: assignParts vars σ ps
  | .code t :: ps => .code (assign vars σ t) :: assignParts vars σ ps
termination_by structural ps => ps

end

mutual

theorem assign_eq_self {vars : List String} {σ : String → Code} :
    (t : Code) → (∀ x ∈ symbolNames t.nodes, x ∉ vars) → t.assign vars σ = t
  | .symbol _ _, h => if_neg (h _ List.mem_cons_self)
  | .list _ ts, h => by rw [assign, assignAll_eq_self ts h]
  | .marked _ _ t, h => by rw [assign, assign_eq_self t h]
  | .format _ ps, h => by rw [assign, assignParts_eq_self ps h]
  | .number _ _, _ | .string _ _, _ | .boolean _ _, _ | .nil _, _ | .embedded _ _, _ => rfl

theorem assignAll_eq_self {vars : List String} {σ : String → Code} :
    (ts : List Code) → (∀ x ∈ symbolNames (nodesAll ts), x ∉ vars) → assignAll vars σ ts = ts
  | [], _ => rfl
  | t :: ts, h => by
    rw [symbolNames, nodesAll, List.filterMap_append, List.forall_mem_append] at h
    rw [assignAll, assign_eq_self t h.1, assignAll_eq_self ts h.2]

theorem assignParts_eq_self {vars : List String} {σ : String → Code} :
    (ps : List (Part Value)) → (∀ x ∈ symbolNames (Part.nodesAll ps), x ∉ vars) → assignParts vars σ ps = ps
  | [], _ => rfl
  | .text _ :: ps, h => by rw [assignParts, assignParts_eq_self ps h]
  | .code t :: ps, h => by
    rw [symbolNames, Part.nodesAll, List.filterMap_append, List.forall_mem_append] at h
    rw [assignParts, assign_eq_self t h.1, assignParts_eq_self ps h.2]

end

mutual

/-- Assignments that put the same terms for the variables make the same of a term without NaN. -/
theorem same_assign {vars : List String} {σ τ : String → Code} (hvars : ∀ x ∈ vars, (σ x).same (τ x) = true) :
    (t : Code) → t.NaNFree → (t.assign vars σ).same (t.assign vars τ) = true
  | .symbol _ x, _ => by
    rw [assign, assign]
    split
    · exact hvars x ‹_›
    · simp [same]
  | .list _ ts, h => sameAll_assignAll hvars ts fun p x hx => h p x (List.mem_cons_of_mem _ hx)
  | .marked _ _ t, h => by
    rw [assign, assign, same, same_assign hvars t fun p x hx => h p x (List.mem_cons_of_mem _ hx), beq_self_eq_true,
      Bool.and_self]
  | .format _ ps, h => sameParts_assignParts hvars ps fun p x hx => h p x (List.mem_cons_of_mem _ hx)
  | .number _ _, h | .string _ _, h | .boolean _ _, h | .nil _, h | .embedded _ _, h => same_refl _ h

theorem sameAll_assignAll {vars : List String} {σ τ : String → Code} (hvars : ∀ x ∈ vars, (σ x).same (τ x) = true) :
    (ts : List Code) → (∀ pos x, .number pos x ∈ nodesAll ts → Number.isNaN x = false) →
    sameAll (assignAll vars σ ts) (assignAll vars τ ts) = true
  | [], _ => rfl
  | t :: ts, h => by
    rw [assignAll, assignAll, sameAll, same_assign hvars t fun p x hx => h p x (List.mem_append_left _ hx),
      sameAll_assignAll hvars ts fun p x hx => h p x (List.mem_append_right _ hx), Bool.and_self]

theorem sameParts_assignParts {vars : List String} {σ τ : String → Code} (hvars : ∀ x ∈ vars, (σ x).same (τ x) = true) :
    (ps : List (Part Value)) → (∀ pos x, .number pos x ∈ Part.nodesAll ps → Number.isNaN x = false) →
    sameParts (assignParts vars σ ps) (assignParts vars τ ps) = true
  | [], _ => rfl
  | .text _ :: ps, h => by
    rw [assignParts, assignParts, sameParts, beq_self_eq_true, sameParts_assignParts hvars ps h, Bool.and_self]
  | .code t :: ps, h => by
    rw [assignParts, assignParts, sameParts, same_assign hvars t fun p x hx => h p x (List.mem_append_left _ hx),
      sameParts_assignParts hvars ps fun p x hx => h p x (List.mem_append_right _ hx), Bool.and_self]

end

/-- A pattern that matches only terms that are the same: neither a symbol nor a list. -/
def IsLiteral : Code → Prop
  | .symbol _ _ | .list _ _ => False
  | _ => True

theorem IsLiteral.assign_eq_self {vars : List String} {σ : String → Code} {p : Code} (hp : p.IsLiteral)
    (h : ∀ x ∈ p.enclosed, x ∉ vars) : p.assign vars σ = p := by
  cases p with
  | symbol | list => cases hp
  | marked pos m t => exact Term.assign_eq_self (.marked pos m t) h
  | format pos ps => exact Term.assign_eq_self (.format pos ps) h
  | _ => rfl

end Term

namespace Expansion

open Term

theorem matchTerm_of_isLiteral {name : String} {p : Code} (hp : p.IsLiteral) (t : Code) (found : Bindings Code) :
    matchTerm name p t found = if p.same t then .ok found else .error (mismatch p t) := by
  cases p with
  | symbol | list => cases hp
  | _ => rfl

/-- An assignment that makes of each pattern the same as its operand. -/
def Fits (vars : List String) (σ : String → Code) (patterns operands : List Code) : Prop :=
  List.Forall₂ (fun p t => (p.assign vars σ).same t = true) patterns operands

theorem fits_iff {vars : List String} {σ : String → Code} {patterns operands : List Code} :
    Fits vars σ patterns operands ↔ sameAll (assignAll vars σ patterns) operands = true := by
  induction patterns generalizing operands with
  | nil => cases operands <;> simp [Fits, assignAll, sameAll]
  | cons p patterns ih =>
    cases operands with
    | nil => simp [Fits, assignAll, sameAll]
    | cons t operands => simp only [Fits, List.forall₂_cons, assignAll, sameAll, Bool.and_eq_true, ← ih]

/-! ## Matching against an assignment -/

/-- What was found is what an assignment puts for the variables. -/
def Agrees (σ : String → Code) (found : Bindings Code) : Prop :=
  ∀ x u, found.value? x = some u → (σ x).same u = true

theorem Agrees.nil (σ : String → Code) : Agrees σ [] := fun _ _ h => by cases h

/-- A match that succeeds and finds what the assignment puts for the variables. -/
def Succeeds (σ : String → Code) (result : Except Fault (Bindings Code)) : Prop :=
  ∃ found, result = .ok found ∧ Agrees σ found

theorem succeeds_ok {σ : String → Code} {found : Bindings Code} : Succeeds σ (.ok found) ↔ Agrees σ found :=
  ⟨fun ⟨_, h, ha⟩ => by cases h; exact ha, fun ha => ⟨found, rfl, ha⟩⟩

theorem not_succeeds_error {σ : String → Code} {f : Fault} : ¬ Succeeds σ (.error f) :=
  fun ⟨_, h, _⟩ => by cases h

theorem succeeds_ite {σ : String → Code} {c : Bool} {found : Bindings Code} {f : Fault} :
    Succeeds σ (if c then .ok found else .error f) ↔ Agrees σ found ∧ c = true := by
  cases c with
  | false => simp [not_succeeds_error]
  | true => simp [succeeds_ok]

theorem agrees_put_iff {σ : String → Code} {found : Bindings Code} {x : String} {t : Code}
    (h : ∀ u, found.value? x = some u → u.same t = true) :
    Agrees σ (found.put x t) ↔ Agrees σ found ∧ (σ x).same t = true := by
  constructor
  · intro ha
    have ht : (σ x).same t = true := ha x t (by rw [Bindings.value?_put, if_pos rfl])
    refine ⟨fun y u hu => ?_, ht⟩
    -- The earlier term of the variable is forgotten, but it is the same as the new one.
    by_cases hy : y = x
    · subst hy
      exact same_trans _ _ _ ht (same_symm _ _ (h u hu))
    · exact ha y u (by rw [Bindings.value?_put, if_neg hy, hu])
  · rintro ⟨ha, ht⟩ y u hu
    rw [Bindings.value?_put] at hu
    split at hu
    case isTrue hy =>
      cases hu
      rwa [hy]
    case isFalse => exact ha y u hu

theorem succeeds_matchVariable {σ : String → Code} {pattern : Code} {x : String} {t : Code} {found : Bindings Code} :
    Succeeds σ (matchVariable pattern x t found) ↔ Agrees σ found ∧ (σ x).same t = true := by
  unfold matchVariable
  split
  next earlier hearlier =>
    by_cases ht : earlier.same t = true
    · rw [if_pos ht, succeeds_ok, agrees_put_iff fun u hu => by rw [hearlier] at hu; cases hu; exact ht]
    · rw [if_neg ht]
      refine iff_of_false not_succeeds_error fun ⟨ha, hx⟩ => ht ?_
      exact same_trans _ _ _ (same_symm _ _ (ha x earlier hearlier)) hx
  next hnone => rw [succeeds_ok, agrees_put_iff fun u hu => by rw [hnone] at hu; cases hu]

theorem succeeds_of_isLiteral {name : String} {vars : List String} {σ : String → Code} {p : Code} (hp : p.IsLiteral)
    (t : Code) (found : Bindings Code) (h : ∀ x ∈ p.enclosed, x ∉ vars) :
    Succeeds σ (matchTerm name p t found) ↔ Agrees σ found ∧ (p.assign vars σ).same t = true := by
  rw [matchTerm_of_isLiteral hp, hp.assign_eq_self h, succeeds_ite]

mutual

/-- A pattern matches a term, and nothing is found that the assignment disagrees with, if and only if the assignment makes
the same as the term of the pattern. -/
theorem succeeds_matchTerm {name : String} {vars : List String} {σ : String → Code} (hname : name ∉ vars) :
    (p t : Code) → (found : Bindings Code) → (∀ x ∈ p.patternVars name, x ∈ vars) →
    (∀ x ∈ p.enclosed, x ∉ vars) →
    (Succeeds σ (matchTerm name p t found) ↔ Agrees σ found ∧ (p.assign vars σ).same t = true)
  | .symbol pos x, t, found, hvars, _ => by
    rw [matchTerm]
    by_cases hx : x = name
    · rw [if_pos hx, succeeds_ite, assign, if_neg (hx ▸ hname)]
    · have hmem : x ∈ vars := hvars x (by rw [patternVars, if_neg hx]; exact List.mem_singleton_self x)
      rw [if_neg hx, succeeds_matchVariable, assign, if_pos hmem]
  | .list pos ps, .list _ ts, found, hvars, henclosed => by
    rw [matchTerm]
    by_cases hlength : ps.length = ts.length
    · rw [if_pos hlength, succeeds_matchAll hname ps ts found hlength hvars henclosed]
      rfl
    · rw [if_neg hlength]
      refine iff_of_false not_succeeds_error fun ⟨_, hsame⟩ => hlength ?_
      exact (fits_iff.2 hsame).length_eq
  | .list _ _, .number _ _, _, _, _ | .list _ _, .string _ _, _, _, _ | .list _ _, .symbol _ _, _, _, _
  | .list _ _, .boolean _ _, _, _, _ | .list _ _, .nil _, _, _, _ | .list _ _, .marked _ _ _, _, _, _
  | .list _ _, .format _ _, _, _, _ | .list _ _, .embedded _ _, _, _, _ =>
    iff_of_false not_succeeds_error fun ⟨_, hsame⟩ => by cases hsame
  | .number _ _, t, found, _, henclosed | .string _ _, t, found, _, henclosed | .boolean _ _, t, found, _, henclosed
  | .nil _, t, found, _, henclosed | .marked _ _ _, t, found, _, henclosed | .format _ _, t, found, _, henclosed
  | .embedded _ _, t, found, _, henclosed => succeeds_of_isLiteral (by exact trivial) t found henclosed

theorem succeeds_matchAll {name : String} {vars : List String} {σ : String → Code} (hname : name ∉ vars) :
    (ps ts : List Code) → (found : Bindings Code) → ps.length = ts.length →
    (∀ x ∈ patternVarsAll name ps, x ∈ vars) → (∀ x ∈ enclosedAll ps, x ∉ vars) →
    (Succeeds σ (matchAll name ps ts found) ↔ Agrees σ found ∧ sameAll (assignAll vars σ ps) ts = true)
  | [], [], found, _, _, _ => by simp [matchAll, assignAll, sameAll, succeeds_ok]
  | [], _ :: _, _, hlength, _, _ | _ :: _, [], _, hlength, _, _ => by cases hlength
  | p :: ps, t :: ts, found, hlength, hvars, henclosed => by
    rw [patternVarsAll, List.forall_mem_append] at hvars
    rw [enclosedAll, List.forall_mem_append] at henclosed
    rw [assignAll, sameAll, Bool.and_eq_true, ← and_assoc, ← succeeds_matchTerm hname p t found hvars.1 henclosed.1,
      matchAll]
    -- The rest of the row is matched with what the first pattern has found.
    cases matchTerm name p t found with
    | error f => exact iff_of_false not_succeeds_error fun h => not_succeeds_error h.1
    | ok found' =>
      rw [succeeds_ok]
      exact succeeds_matchAll hname ps ts found' (Nat.succ.inj hlength) hvars.2 henclosed.2

end

/-! ## What a match finds -/

/-- Bindings that come from others by binding the given names, in their order, each to one of the given terms. -/
def Puts (names : List String) (terms : List Code) (found found' : Bindings Code) : Prop :=
  ∃ pairs : List (String × Code), found' = pairs.foldl (fun b q => b.put q.1 q.2) found ∧
    pairs.map Prod.fst = names ∧ ∀ q ∈ pairs, q.2 ∈ terms

theorem Puts.nil (terms : List Code) (found : Bindings Code) : Puts [] terms found found :=
  ⟨[], rfl, rfl, fun _ h => by cases h⟩

theorem Puts.one {terms : List Code} {t : Code} (ht : t ∈ terms) (x : String) (found : Bindings Code) :
    Puts [x] terms found (found.put x t) :=
  ⟨[(x, t)], rfl, rfl, fun q hq => by rwa [List.mem_singleton.1 hq]⟩

theorem Puts.mono {names : List String} {terms terms' : List Code} {found found' : Bindings Code}
    (h : Puts names terms found found') (hterms : terms ⊆ terms') : Puts names terms' found found' :=
  h.imp fun _ ⟨hfold, hnames, hmem⟩ => ⟨hfold, hnames, fun q hq => hterms (hmem q hq)⟩

theorem Puts.trans {names names' : List String} {terms : List Code} {found found' found'' : Bindings Code}
    (h : Puts names terms found found') (h' : Puts names' terms found' found'') :
    Puts (names ++ names') terms found found'' := by
  obtain ⟨pairs, rfl, rfl, hmem⟩ := h
  obtain ⟨pairs', rfl, rfl, hmem'⟩ := h'
  exact ⟨pairs ++ pairs', List.foldl_append.symm, List.map_append,
    fun q hq => (List.mem_append.1 hq).elim (hmem q) (hmem' q)⟩

theorem puts_of_ite {c : Bool} {terms : List Code} {f : Fault} {found found' : Bindings Code}
    (h : (if c then .ok found else .error f : Except Fault (Bindings Code)) = .ok found') :
    Puts [] terms found found' := by
  split at h
  · cases h
    exact .nil terms found
  · cases h

theorem eq_put_of_matchVariable {pattern : Code} {x : String} {t : Code} {found found' : Bindings Code}
    (h : matchVariable pattern x t found = .ok found') : found' = found.put x t := by
  unfold matchVariable at h
  grind

mutual

/-- A match binds the variables of its pattern, each to a node of the term. -/
theorem puts_of_matchTerm {name : String} : (p t : Code) → {found found' : Bindings Code} →
    matchTerm name p t found = .ok found' → Puts (p.patternVars name) t.nodes found found'
  | .symbol pos x, t, found, found', h => by
    rw [matchTerm] at h
    rw [patternVars]
    by_cases hx : x = name
    · rw [if_pos hx] at h
      rw [if_pos hx]
      exact puts_of_ite h
    · rw [if_neg hx] at h
      rw [if_neg hx, eq_put_of_matchVariable h]
      exact .one t.mem_nodes_self x found
  | .list pos ps, .list _ ts, found, found', h => by
    rw [matchTerm] at h
    split at h
    · exact (puts_of_matchAll ps ts ‹_› h).mono (List.subset_cons_self _ _)
    · cases h
  | .list _ _, .number _ _, _, _, h | .list _ _, .string _ _, _, _, h | .list _ _, .symbol _ _, _, _, h
  | .list _ _, .boolean _ _, _, _, h | .list _ _, .nil _, _, _, h | .list _ _, .marked _ _ _, _, _, h
  | .list _ _, .format _ _, _, _, h | .list _ _, .embedded _ _, _, _, h => by cases h
  | .number _ _, _, _, _, h | .string _ _, _, _, _, h | .boolean _ _, _, _, _, h | .nil _, _, _, _, h
  | .marked _ _ _, _, _, _, h | .format _ _, _, _, _, h | .embedded _ _, _, _, _, h => puts_of_ite h

theorem puts_of_matchAll {name : String} : (ps ts : List Code) → {found found' : Bindings Code} →
    ps.length = ts.length → matchAll name ps ts found = .ok found' →
    Puts (patternVarsAll name ps) (nodesAll ts) found found'
  | [], [], found, _, _, h => by
    cases h
    exact .nil [] found
  | [], _ :: _, _, _, hlength, _ | _ :: _, [], _, _, hlength, _ => by cases hlength
  | p :: ps, t :: ts, found, found', hlength, h => by
    rw [matchAll] at h
    split at h
    next middle hfirst =>
      have hrest := puts_of_matchAll ps ts (Nat.succ.inj hlength) h
      exact ((puts_of_matchTerm p t hfirst).mono (List.subset_append_left _ _)).trans
        (hrest.mono (List.subset_append_right _ _))
    next => cases h

end

/-! ## Why a match fails -/

mutual

/-- A match fails at a node of the pattern and a node of the term that do not fit. -/
theorem mismatch_of_matchTerm {name : String} : (p t : Code) → {found : Bindings Code} → {f : Fault} →
    matchTerm name p t found = .error f → ∃ q ∈ p.nodes, ∃ u ∈ t.nodes, f = mismatch q u
  | .symbol pos x, t, found, f, h => by
    have hf : f = mismatch (.symbol pos x) t := by
      rw [matchTerm] at h
      unfold matchVariable at h
      grind
    exact ⟨_, mem_nodes_self _, t, t.mem_nodes_self, hf⟩
  | .list pos ps, .list pos' ts, found, f, h => by
    rw [matchTerm] at h
    split at h
    · obtain ⟨q, hq, u, hu, hf⟩ := mismatch_of_matchAll ps ts h
      exact ⟨q, List.mem_cons_of_mem _ hq, u, List.mem_cons_of_mem _ hu, hf⟩
    · exact ⟨_, mem_nodes_self _, _, mem_nodes_self _, (Except.error.inj h).symm⟩
  | .list _ _, .number _ _, _, _, h | .list _ _, .string _ _, _, _, h | .list _ _, .symbol _ _, _, _, h
  | .list _ _, .boolean _ _, _, _, h | .list _ _, .nil _, _, _, h | .list _ _, .marked _ _ _, _, _, h
  | .list _ _, .format _ _, _, _, h | .list _ _, .embedded _ _, _, _, h =>
    ⟨_, mem_nodes_self _, _, mem_nodes_self _, (Except.error.inj h).symm⟩
  | .number _ _, t, _, _, h | .string _ _, t, _, _, h | .boolean _ _, t, _, _, h | .nil _, t, _, _, h
  | .marked _ _ _, t, _, _, h | .format _ _, t, _, _, h | .embedded _ _, t, _, _, h =>
    ⟨_, mem_nodes_self _, t, t.mem_nodes_self, by rw [matchTerm_of_isLiteral (by exact trivial)] at h; grind⟩

theorem mismatch_of_matchAll {name : String} : (ps ts : List Code) → {found : Bindings Code} → {f : Fault} →
    matchAll name ps ts found = .error f → ∃ q ∈ nodesAll ps, ∃ u ∈ nodesAll ts, f = mismatch q u
  | [], _, _, _, h | _ :: _, [], _, _, h => by cases h
  | p :: ps, t :: ts, found, f, h => by
    rw [matchAll] at h
    split at h
    next =>
      obtain ⟨q, hq, u, hu, hf⟩ := mismatch_of_matchAll ps ts h
      exact ⟨q, List.mem_append_right _ hq, u, List.mem_append_right _ hu, hf⟩
    next hfirst =>
      cases h
      obtain ⟨q, hq, u, hu, hf⟩ := mismatch_of_matchTerm p t hfirst
      exact ⟨q, List.mem_append_left _ hq, u, List.mem_append_left _ hu, hf⟩

end

/-! ## Putting terms into a template -/

/-- The assignment that puts for each variable the term found for it. -/
def assignment (found : Bindings Code) (x : String) : Code := (found.value? x).getD (.symbol .nowhere x)

mutual

/-- The expander puts for the variables what it has found. -/
theorem substitute_eq_assign {found : Bindings Code} {vars : List String}
    (hfound : ∀ x, (found.value? x).isSome ↔ x ∈ vars) :
    (t : Code) → substitute found t = t.assign vars (assignment found)
  | .symbol pos x => by
    rw [substitute, assign, assignment]
    by_cases hx : x ∈ vars
    · obtain ⟨u, hu⟩ := Option.isSome_iff_exists.1 ((hfound x).2 hx)
      rw [if_pos hx, hu]
      rfl
    · have hnone : found.value? x = none := by simpa using mt (hfound x).1 hx
      rw [if_neg hx, hnone]
      rfl
  | .list pos ts => by rw [substitute, assign, substituteAll_eq_assignAll hfound ts]
  | .marked pos m t => by rw [substitute, assign, substitute_eq_assign hfound t]
  | .format pos ps => by rw [substitute, assign, substituteParts_eq_assignParts hfound ps]
  | .number _ _ | .string _ _ | .boolean _ _ | .nil _ | .embedded _ _ => rfl

theorem substituteAll_eq_assignAll {found : Bindings Code} {vars : List String}
    (hfound : ∀ x, (found.value? x).isSome ↔ x ∈ vars) :
    (ts : List Code) → substituteAll found ts = assignAll vars (assignment found) ts
  | [] => rfl
  | t :: ts => by
    rw [substituteAll, assignAll, substitute_eq_assign hfound t, substituteAll_eq_assignAll hfound ts]

theorem substituteParts_eq_assignParts {found : Bindings Code} {vars : List String}
    (hfound : ∀ x, (found.value? x).isSome ↔ x ∈ vars) :
    (ps : List (Part Value)) → substituteParts found ps = assignParts vars (assignment found) ps
  | [] => rfl
  | .text s :: ps => by rw [substituteParts, assignParts, substituteParts_eq_assignParts hfound ps]
  | .code t :: ps => by
    rw [substituteParts, assignParts, substitute_eq_assign hfound t, substituteParts_eq_assignParts hfound ps]

end

/-! ## Expanding a call -/

mutual

theorem not_mem_patternVars {name : String} : (p : Code) → name ∉ p.patternVars name
  | .symbol _ x => by
    rw [patternVars]
    split
    case isTrue => exact List.not_mem_nil
    case isFalse hx => exact fun h => hx (List.mem_singleton.1 h).symm
  | .list _ ps => not_mem_patternVarsAll ps
  | .number _ _ | .string _ _ | .boolean _ _ | .nil _ | .marked _ _ _ | .format _ _ | .embedded _ _ => List.not_mem_nil

theorem not_mem_patternVarsAll {name : String} : (ps : List Code) → name ∉ patternVarsAll name ps
  | [] => List.not_mem_nil
  | p :: ps => fun h => (List.mem_append.1 h).elim (not_mem_patternVars p) (not_mem_patternVarsAll ps)

end

section Expanding

variable {name : String} {pattern operands : List Code}

/-- The assignments that fit are those that agree with what the match finds. -/
theorem fits_iff_succeeds (hpattern : (patternVarsAll name pattern).Disjoint (enclosedAll pattern))
    (hlength : operands.length = pattern.length) {σ : String → Code} :
    Fits (patternVarsAll name pattern) σ pattern operands ↔ Succeeds σ (matchAll name pattern operands []) := by
  rw [succeeds_matchAll (not_mem_patternVarsAll pattern) pattern operands [] hlength.symm (fun _ hx => hx)
    (fun x hx hvar => hpattern hvar hx), fits_iff]
  exact (and_iff_right (Agrees.nil σ)).symm

theorem isSome_of_matchAll (hlength : operands.length = pattern.length) {found : Bindings Code}
    (h : matchAll name pattern operands [] = .ok found) (x : String) :
    (found.value? x).isSome ↔ x ∈ patternVarsAll name pattern := by
  obtain ⟨pairs, rfl, hnames, -⟩ := puts_of_matchAll pattern operands hlength.symm h
  rw [Bindings.isSome_value?_foldl_put, hnames]
  exact or_iff_left (by simp [Bindings.value?])

/-- What the match finds in operands without NaN is an assignment that agrees with it. -/
theorem agrees_assignment (hoperands : ∀ t ∈ operands, t.NaNFree) (hlength : operands.length = pattern.length)
    {found : Bindings Code} (h : matchAll name pattern operands [] = .ok found) : Agrees (assignment found) found := by
  intro x u hu
  obtain ⟨pairs, rfl, -, hnodes⟩ := puts_of_matchAll pattern operands hlength.symm h
  have hmem : (x, u) ∈ pairs := (Bindings.mem_or_of_value?_foldl_put hu).resolve_right fun h => by cases h
  obtain ⟨t, ht, hut⟩ := exists_mem_of_mem_nodesAll (hnodes _ hmem)
  rw [assignment, hu]
  exact same_refl u (nanFree_of_mem_nodes (hoperands t ht) hut)

/-- Two assignments that fit put the same terms for the variables. -/
theorem Fits.same (hpattern : (patternVarsAll name pattern).Disjoint (enclosedAll pattern)) {σ τ : String → Code}
    (hσ : Fits (patternVarsAll name pattern) σ pattern operands)
    (hτ : Fits (patternVarsAll name pattern) τ pattern operands) :
    ∀ x ∈ patternVarsAll name pattern, (σ x).same (τ x) = true := by
  intro x hx
  have hlength : operands.length = pattern.length := hσ.length_eq.symm
  obtain ⟨found, hfound, hσ⟩ := (fits_iff_succeeds hpattern hlength).1 hσ
  obtain ⟨found', hfound', hτ⟩ := (fits_iff_succeeds hpattern hlength).1 hτ
  obtain rfl := Except.ok.inj (hfound.symm.trans hfound')
  obtain ⟨u, hu⟩ := Option.isSome_iff_exists.1 ((isSome_of_matchAll hlength hfound x).2 hx)
  exact same_trans _ _ _ (hσ x u hu) (same_symm _ _ (hτ x u hu))

/-- The expansion is the template with the terms of an assignment that fits. -/
theorem exists_fits_of_expandRule (hpattern : (patternVarsAll name pattern).Disjoint (enclosedAll pattern))
    (hoperands : ∀ t ∈ operands, t.NaNFree) {template e : Code} (h : expandRule name pattern template operands = .ok e) :
    operands.length = pattern.length ∧ ∃ τ, Fits (patternVarsAll name pattern) τ pattern operands ∧
      e = template.assign (patternVarsAll name pattern) τ := by
  unfold expandRule at h
  split at h
  case isTrue hlength =>
    split at h
    next found hfound =>
      have hagrees := agrees_assignment hoperands hlength hfound
      refine ⟨hlength, assignment found, (fits_iff_succeeds hpattern hlength).2 ⟨found, hfound, hagrees⟩, ?_⟩
      rw [← Except.ok.inj h, substitute_eq_assign (isSome_of_matchAll hlength hfound)]
    next => cases h
  case isFalse => cases h

theorem exists_expandRule_of_fits (hpattern : (patternVarsAll name pattern).Disjoint (enclosedAll pattern))
    {σ : String → Code} (h : Fits (patternVarsAll name pattern) σ pattern operands) (template : Code) :
    ∃ e, expandRule name pattern template operands = .ok e := by
  have hlength : operands.length = pattern.length := h.length_eq.symm
  obtain ⟨found, hfound, -⟩ := (fits_iff_succeeds hpattern hlength).1 h
  exact ⟨substitute found template, by rw [expandRule, if_pos hlength, hfound]⟩

theorem expandRule_of_not_fits (hpattern : (patternVarsAll name pattern).Disjoint (enclosedAll pattern))
    (hoperands : ∀ t ∈ operands, t.NaNFree) (hlength : operands.length = pattern.length)
    (h : ∀ σ, ¬ Fits (patternVarsAll name pattern) σ pattern operands) (template : Code) :
    ∃ p ∈ nodesAll pattern, ∃ t ∈ nodesAll operands,
      expandRule name pattern template operands = .error (mismatch p t) := by
  cases hmatch : matchAll name pattern operands [] with
  | ok found =>
    have hagrees := agrees_assignment hoperands hlength hmatch
    exact absurd ((fits_iff_succeeds hpattern hlength).2 ⟨found, hmatch, hagrees⟩) (h _)
  | error f =>
    obtain ⟨p, hp, t, ht, rfl⟩ := mismatch_of_matchAll pattern operands hmatch
    exact ⟨p, hp, t, ht, by rw [expandRule, if_pos hlength, hmatch]⟩

end Expanding

/-- A rule matches exactly. Let no variable of the pattern occur within a marked form or a format string of the pattern, and
let the operands have no NaN. Then a call expands if and only if it has as many operands as there are patterns and some
assignment of terms to the variables makes the operands of the patterns. Assignments that do so put the same terms for the
variables. The expansion is the template under one of them, and so, if the template has no NaN, the same as the template under
each of them. Otherwise the call fails: for a wrong number of operands with error 004, and else with error 009, which names a
part of the pattern and the part of the operands that does not fit. -/
theorem expandRule_exact (name : String) (pattern : List Code) (template : Code) (operands : List Code)
    (hpattern : (patternVarsAll name pattern).Disjoint (enclosedAll pattern)) (hoperands : ∀ t ∈ operands, t.NaNFree) :
    let fits := fun σ => Fits (patternVarsAll name pattern) σ pattern operands
    let result := expandRule name pattern template operands
    ((∃ e, result = .ok e) ↔ operands.length = pattern.length ∧ ∃ σ, fits σ) ∧
      (∀ σ τ, fits σ → fits τ → ∀ x ∈ patternVarsAll name pattern, (σ x).same (τ x) = true) ∧
      (∀ e, result = .ok e → ∃ τ, fits τ ∧ e = template.assign (patternVarsAll name pattern) τ) ∧
      (∀ e σ, result = .ok e → fits σ → template.NaNFree →
        e.same (template.assign (patternVarsAll name pattern) σ) = true) ∧
      (operands.length ≠ pattern.length → ∃ f, result = .error f ∧ f.code.text = "004") ∧
      (operands.length = pattern.length → (∀ σ, ¬ fits σ) → ∃ f, result = .error f ∧ f.code.text = "009" ∧
        ∃ p ∈ nodesAll pattern, ∃ t ∈ nodesAll operands, f = mismatch p t) := by
  intro fits result
  -- What a call expands to fixes an assignment that fits; the other clauses compare it with a given one.
  have hexpansion : ∀ e, result = .ok e → operands.length = pattern.length ∧ ∃ τ, fits τ ∧ e = _ :=
    fun e he => exists_fits_of_expandRule hpattern hoperands he
  refine ⟨⟨?_, ?_⟩, ?_, ?_, ?_, ?_, ?_⟩
  · rintro ⟨e, he⟩
    exact (hexpansion e he).imp_right fun ⟨τ, hτ, _⟩ => ⟨τ, hτ⟩
  · rintro ⟨-, σ, hσ⟩
    exact exists_expandRule_of_fits hpattern hσ template
  · exact fun σ τ hσ hτ => hσ.same hpattern hτ
  · exact fun e he => (hexpansion e he).2
  · intro e σ he hσ htemplate
    obtain ⟨-, τ, hτ, rfl⟩ := hexpansion e he
    exact same_assign (hτ.same hpattern hσ) template htemplate
  · intro hlength
    have hcode : ErrorCode.arityMismatch.text = "004" := by decide
    exact ⟨.arity (Nat.repr pattern.length) operands.length, if_neg hlength, hcode⟩
  · intro hlength hnone
    have hcode : ErrorCode.signatureMismatch.text = "009" := by decide
    obtain ⟨p, hp, t, ht, he⟩ := expandRule_of_not_fits hpattern hoperands hlength hnone template
    exact ⟨mismatch p t, he, hcode, p, hp, t, ht, rfl⟩

/-- The number 1 for `x`, and the symbol `x` for anything else. -/
def oneForX (x : String) : Code := if x = "x" then .number .nowhere 1 else .symbol .nowhere "x"

/-- A variable that occurs twice, and the name of the macro as a part of the pattern: the call expands. -/
theorem expandRule_exact_repeatedVariable :
    let pattern : List Code := [.symbol .nowhere "x", .list .nowhere [.symbol .nowhere "m", .symbol .nowhere "y"],
      .symbol .nowhere "x"]
    let template : Code := .list .nowhere [.symbol .nowhere "y", .marked .nowhere .quote (.symbol .nowhere "x"),
      .format .nowhere [.text "z", .code (.symbol .nowhere "y")], .symbol .nowhere "z"]
    let operands : List Code := [.number .nowhere 1, .list .nowhere [.symbol .nowhere "m", .symbol .nowhere "x"],
      .number .nowhere 1]
    ∃ e, expandRule "m" pattern template operands = .ok e ∧
      e.same (.list .nowhere [.symbol .nowhere "x", .marked .nowhere .quote (.number .nowhere 1),
        .format .nowhere [.text "z", .code (.symbol .nowhere "x")], .symbol .nowhere "z"]) = true := by
  intro pattern template operands
  have hoperands : ∀ t ∈ operands, t.NaNFree := by
    have hone : Number.isNaN 1 = false := by decide
    simp [operands, NaNFree, nodes, nodesAll, hone]
  have htemplate : template.NaNFree := by simp [template, NaNFree, nodes, nodesAll, Part.nodesAll]
  have hpattern : (patternVarsAll "m" pattern).Disjoint (enclosedAll pattern) := List.disjoint_left.2 (by decide)
  have hfits : Fits (patternVarsAll "m" pattern) oneForX pattern operands := fits_iff.2 (by decide)
  obtain ⟨hok, -, -, hsame, -, -⟩ := expandRule_exact "m" pattern template operands hpattern hoperands
  obtain ⟨e, he⟩ := hok.2 ⟨rfl, oneForX, hfits⟩
  exact ⟨e, he, hsame e oneForX he hfits htemplate⟩

/-- A template that is NaN is not the same as itself, and so not as its expansion. -/
theorem expandRule_nanTemplate :
    ¬ ∀ e σ, expandRule "m" [] (.number .nowhere (0.0 / 0.0)) [] = .ok e → Fits (patternVarsAll "m" []) σ [] [] →
      e.same (assign (patternVarsAll "m" []) σ (.number .nowhere (0.0 / 0.0))) = true := by
  intro h
  have hsame := h (.number .nowhere (0.0 / 0.0)) (fun _ => .nil .nowhere) rfl .nil
  have hnan : Number.equal (0.0 / 0.0) (0.0 / 0.0) = false := by decide
  exact Bool.false_ne_true (hnan.symm.trans hsame)

end Expansion

end Lisplet
