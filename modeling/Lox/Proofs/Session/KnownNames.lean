import Lox.Proofs.Grammar.Origin
import Lox.Proofs.Scope.Occurrences
import Lox.Proofs.Session.Joining

/-!
# What known names change

Binding a program takes the global names that are bound already. They matter to one error alone, the
reading of a global in its own initializer: `known_names_only_excuse`. Names that are bound to
scopes never depend on them.
-/

namespace Lox

-- ---------------------------------------------------------------------------
-- The tokens of occurrences
-- ---------------------------------------------------------------------------

def Expr.readName? : Expr → Option Token
  | .variable name _ => some name
  | _ => none

theorem Expr.readName?_eq_some {x : Expr} {name : Token} (h : x.readName? = some name) :
    ∃ depth, x = .variable name depth := by
  cases x with
  | «variable» token depth =>
    cases h
    exact ⟨depth, rfl⟩
  | _ => cases h

mutual

theorem Expr.filterMap_nodes : ∀ e : Expr, e.nodes.filterMap Expr.readName? = e.readNames
  | .literal _ | .variable _ _ => rfl
  | .grouping inner => by
    rw [Expr.nodes, List.filterMap_cons_none rfl, inner.filterMap_nodes, Expr.readNames]
  | .unary _ operand => by
    rw [Expr.nodes, List.filterMap_cons_none rfl, operand.filterMap_nodes, Expr.readNames]
  | .binary left _ right | .logical left _ right => by
    rw [Expr.nodes, List.filterMap_cons_none rfl, List.filterMap_append, left.filterMap_nodes,
      right.filterMap_nodes, Expr.readNames]
  | .assign _ value _ => by
    rw [Expr.nodes, List.filterMap_cons_none rfl, value.filterMap_nodes, Expr.readNames]
  | .call callee _ arguments => by
    rw [Expr.nodes, List.filterMap_cons_none rfl, List.filterMap_append, callee.filterMap_nodes,
      Expr.filterMap_listNodes arguments, Expr.readNames]

theorem Expr.filterMap_listNodes :
    ∀ es : List Expr, (Expr.listNodes es).filterMap Expr.readName? = Expr.listReadNames es
  | [] => rfl
  | e :: rest => by
    simp [Expr.listNodes, Expr.listReadNames, e.filterMap_nodes, Expr.filterMap_listNodes rest]

end

def Occurrence.StandsIn (nodes : List Expr) (keys : List Token) : Occurrence → Prop
  | returning keyword _ => keyword ∈ keys
  | declaration name _ => name ∈ keys
  | read name _ => ∃ x ∈ nodes, x.readName? = some name

namespace Occurrence.StandsIn

variable {o : Occurrence}

theorem left {nodes : List Expr} {keys : List Token} (h : o.StandsIn nodes keys) (more : List Expr)
    (others : List Token) : o.StandsIn (nodes ++ more) (keys ++ others) := by
  cases o with
  | returning | declaration => exact List.mem_append_left others h
  | read name initialized =>
    obtain ⟨x, hx, hn⟩ := h
    exact ⟨x, List.mem_append_left more hx, hn⟩

theorem right {more : List Expr} {others : List Token} (h : o.StandsIn more others)
    (nodes : List Expr) (keys : List Token) : o.StandsIn (nodes ++ more) (keys ++ others) := by
  cases o with
  | returning | declaration => exact List.mem_append_right keys h
  | read name initialized =>
    obtain ⟨x, hx, hn⟩ := h
    exact ⟨x, List.mem_append_right nodes hx, hn⟩

end Occurrence.StandsIn

theorem Expr.occurrences_stand {e : Expr} {initialized : Option (Token × Standing)} {o : Occurrence}
    (h : o ∈ e.occurrences initialized) (keys : List Token) : o.StandsIn e.nodes keys := by
  obtain ⟨name, hn, rfl⟩ := List.mem_map.mp h
  rwa [← e.filterMap_nodes, List.mem_filterMap] at hn

theorem Occurrence.parameters_stand {around : Standing} {before parameters : List Token}
    {o : Occurrence} (h : o ∈ Occurrence.parameters around before parameters) (nodes : List Expr) :
    o.StandsIn nodes parameters := by
  induction parameters generalizing before with
  | nil => cases h
  | cons p rest ih =>
    rcases List.mem_cons.mp h with rfl | h
    · exact List.mem_cons_self
    · exact (ih h).right [] [p]

mutual

theorem Stmt.occurrences_stand {o : Occurrence} :
    ∀ (t : Stmt) {place : Standing}, o ∈ t.occurrences place → o.StandsIn t.nodes t.keys
  | .expression _, _, h | .print _, _, h => Expr.occurrences_stand h []
  | .variable name none, _, h => by
    obtain rfl := List.mem_singleton.mp h
    exact List.mem_singleton_self _
  | .variable name (some initializer), _, h => by
    rcases List.mem_cons.mp h with rfl | h
    · exact List.mem_singleton_self _
    · exact Expr.occurrences_stand h [name]
  | .block body, _, h => Stmt.listOccurrences_stand body h
  | .branch condition consequent none, _, h => by
    rcases List.mem_append.mp h with h | h
    · exact (Expr.occurrences_stand h []).left _ _
    · exact (consequent.occurrences_stand h).right _ []
  | .branch condition consequent (some alternative), _, h => by
    rcases List.mem_append.mp h with h | h
    · rcases List.mem_append.mp h with h | h
      · exact ((Expr.occurrences_stand h []).left _ consequent.keys).left _ _
      · exact ((consequent.occurrences_stand h).right _ []).left _ _
    · exact (alternative.occurrences_stand h).right _ _
  | .loop condition body, _, h => by
    rcases List.mem_append.mp h with h | h
    · exact (Expr.occurrences_stand h []).left _ _
    · exact (body.occurrences_stand h).right _ []
  | .function name parameters body, place, h => by
    rcases List.mem_append.mp h with h | h
    · rcases List.mem_cons.mp h with rfl | h
      · exact List.mem_cons_self
      · exact ((Occurrence.parameters_stand h []).left _ _).right [] [name]
    · exact ((Stmt.listOccurrences_stand body h).right [] parameters).right [] [name]
  | .return keyword none, _, h => by
    obtain rfl := List.mem_singleton.mp h
    exact List.mem_singleton_self _
  | .return keyword (some value), _, h => by
    rcases List.mem_cons.mp h with rfl | h
    · exact List.mem_singleton_self _
    · exact Expr.occurrences_stand h [keyword]

theorem Stmt.listOccurrences_stand {o : Occurrence} :
    ∀ (ts : List Stmt) {place : Standing}, o ∈ Stmt.listOccurrences place ts →
      o.StandsIn (Stmt.listNodes ts) (Stmt.listKeys ts)
  | [], _, h => by cases h
  | first :: rest, _, h => by
    rcases List.mem_append.mp h with h | h
    · exact (first.occurrences_stand h).left _ _
    · exact (Stmt.listOccurrences_stand rest h).right _ _

end

-- ---------------------------------------------------------------------------
-- Errors under more names
-- ---------------------------------------------------------------------------

/-- The global name that is read in its own initializer, if that is the error. -/
def BindingError.ownGlobal? (e : BindingError) : Option String :=
  match e.cause, e.place with
  | .readGlobalInOwnInitializer, .atLexeme name => some name
  | _, _ => none

/-- The error is about a global that `more` holds and `globals` does not. -/
def BindingError.Excused (globals more : List String) (e : BindingError) : Prop :=
  ∃ name ∈ e.ownGlobal?, name ∈ more ∧ name ∉ globals

instance (globals more : List String) : DecidablePred (BindingError.Excused globals more) :=
  fun e => inferInstanceAs (Decidable (∃ name ∈ e.ownGlobal?, name ∈ more ∧ name ∉ globals))

theorem Occurrence.error?_cases (o : Occurrence) :
    (∃ verdict, (∀ globals, o.error? globals = verdict) ∧ ∀ e ∈ verdict, e.ownGlobal? = none) ∨
    ∃ name initialized, ∃ declared : List String, o = .read name initialized ∧
      ∀ globals, o.error? globals =
        if name.lexeme ∈ globals ∨ name.lexeme ∈ declared then none
        else some (.at name .readGlobalInOwnInitializer) := by
  have other {p : Prop} [Decidable p] {t : Token} {cause : BindingCause}
      (h : cause ≠ .readGlobalInOwnInitializer) :
      ∀ e ∈ if p then none else some (BindingError.at t cause), e.ownGlobal? = none := by
    intro e he
    split at he
    · cases he
    · cases he
      cases cause with
      | readGlobalInOwnInitializer => exact absurd rfl h
      | _ => rfl
  cases o with
  | returning keyword place => exact .inl ⟨_, fun _ => rfl, other (by simp)⟩
  | declaration name place =>
    exact .inl ⟨_, fun _ => (ite_not ..).symm, other (by simp)⟩
  | read name initialized =>
    cases initialized with
    | none => exact .inl ⟨none, fun _ => rfl, by simp⟩
    | some entry =>
      obtain ⟨own, place⟩ := entry
      by_cases same : name.lexeme = own.lexeme
      · by_cases inner : place.isLocal
        · refine .inl ⟨some (.at name .readInOwnInitializer), fun _ => ?_, ?_⟩
          · simp [error?, same, inner]
          · simp [BindingError.at, BindingError.ownGlobal?]
        · refine .inr ⟨name, _, place.declared, rfl, fun globals => ?_⟩
          rw [error?, if_neg (not_not_intro same), if_neg inner]
      · exact .inl ⟨none, fun _ => by simp [error?, same], by simp⟩

section
variable {globals more : List String}

theorem Occurrence.error?_more (hg : ∀ name ∈ globals, name ∈ more) {o : Occurrence}
    (ho : ∀ name initialized, o = .read name initialized → name.kind ≠ .eof) :
    o.error? more = (o.error? globals).filter fun e => ¬ e.Excused globals more := by
  obtain ⟨verdict, same, other⟩ | ⟨name, initialized, declared, rfl, same⟩ := o.error?_cases
  · rw [same, same]
    cases verdict with
    | none => rfl
    | some e => simp [Option.filter_some, BindingError.Excused, other e rfl]
  · have excused : (BindingError.at name .readGlobalInOwnInitializer).Excused globals more ↔
        name.lexeme ∈ more ∧ name.lexeme ∉ globals := by
      simp [BindingError.Excused, BindingError.at, BindingError.ownGlobal?, Place.of, ho name _ rfl]
    rw [same, same]
    by_cases known : name.lexeme ∈ globals ∨ name.lexeme ∈ declared
    · have still : name.lexeme ∈ more ∨ name.lexeme ∈ declared := known.imp_left (hg _)
      rw [if_pos known, if_pos still]
      rfl
    · obtain ⟨unbound, undeclared⟩ := not_or.mp known
      simp [unbound, undeclared, Option.filter_some, excused]

theorem Bound.errors_more (hg : ∀ name ∈ globals, name ∈ more) {tokens : List Token}
    {reading : Grammar.Reading} (hp : Grammar.parse tokens = .ok reading) :
    (Bound.ofStatements more reading.statements).errors =
      (Bound.ofStatements globals reading.statements).errors.filter
        fun e => ¬ e.Excused globals more := by
  have errors (names : List String) : (Bound.ofStatements names reading.statements).errors =
      (Stmt.listOccurrences (.topLevel []) reading.statements).filterMap
      (Occurrence.error? names) :=
    Stmt.listBindingErrors_eq reading.statements (.topLevel names)
  have named {name : Token} {initialized : Option (Token × Standing)}
      (ho : .read name initialized ∈ Stmt.listOccurrences (.topLevel []) reading.statements) :
      name.kind ≠ .eof := by
    obtain ⟨x, hx, hn⟩ := Stmt.listOccurrences_stand _ ho
    obtain ⟨depth, rfl⟩ := Expr.readName?_eq_some hn
    have kind : name.kind = .identifier := (Grammar.parse_draws hp).statements.kinded _ hx
    simp [kind]
  rw [errors, errors, List.filter_filterMap]
  apply List.filterMap_congr
  intro o ho
  refine Occurrence.error?_more hg ?_
  rintro name initialized rfl
  exact named ho

end

theorem Bound.statements_eq (globals more : List String) (statements : List Stmt) :
    (Bound.ofStatements more statements).statements =
      (Bound.ofStatements globals statements).statements := by
  have same : (Scopes.topLevel more).locals = (Scopes.topLevel globals).locals := rfl
  exact Stmt.bindList_of_locals same statements

theorem Bound.ofStatements_congr {globals others : List String}
    (h : ∀ name, name ∈ globals ↔ name ∈ others) {tokens : List Token} {reading : Grammar.Reading}
    (hp : Grammar.parse tokens = .ok reading) :
    Bound.ofStatements others reading.statements =
    Bound.ofStatements globals reading.statements := by
  have same := Bound.statements_eq globals others reading.statements
  have errors := Bound.errors_more (fun name => (h name).mp) hp
  rw [List.filter_eq_self.mpr] at errors
  · exact congrArg₂ Bound.mk same errors
  · intro e _
    simp [BindingError.Excused, h]

-- ---------------------------------------------------------------------------
-- Sessions
-- ---------------------------------------------------------------------------

theorem Session.Reachable.clock_known {s : Session} (hs : s.Reachable) :
    "clock" ∈ s.machine.globalNames := by
  induction hs with
  | start output reading => exact List.mem_singleton_self _
  | @run s steps source _ ih =>
    have grows := (s.run_grows steps source).heap
    exact Heap.isSome_own?_iff.mp (grows.bound _ _ (Heap.isSome_own?_iff.mpr ih))
  | takeOutput _ ih => exact ih
  | write text _ ih => exact ih

/-- Known global names remove errors and change nothing else. With more of them a program is bound
to the same scopes, and its errors are the same ones in the same order, less those about a global
that is read in its own initializer and is one of the new names. So their order and repetition do
not matter, and what is bound without error in a session that has run nothing is bound alike in
every other. -/
theorem known_names_only_excuse {tokens : List Token} {reading : Grammar.Reading}
    (hp : Grammar.parse tokens = .ok reading) :
    (∀ globals more, (∀ name ∈ globals, name ∈ more) →
      (Bound.ofStatements more reading.statements).statements =
        (Bound.ofStatements globals reading.statements).statements ∧
      (Bound.ofStatements more reading.statements).errors.Sublist
        (Bound.ofStatements globals reading.statements).errors ∧
      (Bound.ofStatements more reading.statements).errors =
        (Bound.ofStatements globals reading.statements).errors.filter
          fun e => ¬ e.Excused globals more) ∧
    (∀ globals others, (∀ name, name ∈ globals ↔ name ∈ others) →
      Bound.ofStatements others reading.statements =
        Bound.ofStatements globals reading.statements) ∧
    ∀ output clock,
      (Bound.ofStatements (Session.start output clock).machine.globalNames
        reading.statements).errors = [] →
      ∀ s : Session, s.Reachable → Bound.ofStatements s.machine.globalNames reading.statements =
        Bound.ofStatements (Session.start output clock).machine.globalNames reading.statements := by
  refine ⟨fun globals more hg => ?_, fun globals others h => Bound.ofStatements_congr h hp, ?_⟩
  · have errors := Bound.errors_more hg hp
    refine ⟨Bound.statements_eq globals more reading.statements, ?_, errors⟩
    rw [errors]
    exact List.filter_sublist
  · intro output clock accepted s hs
    -- a session that has run nothing knows `clock` alone
    have known : ∀ name ∈ (Session.start output clock).machine.globalNames,
        name ∈ s.machine.globalNames := by
      intro name hn
      obtain rfl := List.mem_singleton.mp hn
      exact hs.clock_known
    have errors := Bound.errors_more known hp
    rw [accepted, List.filter_nil, ← accepted] at errors
    exact congrArg₂ Bound.mk (Bound.statements_eq _ _ reading.statements) errors

/-- `var a = a; { var b = b; }` reads two names in their own initializers. -/
def readsOwnNames : List Token :=
  [⟨.kwVar, "var", none, 1⟩, ⟨.identifier, "a", none, 1⟩, ⟨.equal, "=", none, 1⟩,
    ⟨.identifier, "a", none, 1⟩, ⟨.semicolon, ";", none, 1⟩, ⟨.leftBrace, "\x7b", none, 2⟩,
    ⟨.kwVar, "var", none, 2⟩, ⟨.identifier, "b", none, 2⟩, ⟨.equal, "=", none, 2⟩,
    ⟨.identifier, "b", none, 2⟩, ⟨.semicolon, ";", none, 2⟩, ⟨.rightBrace, "\x7d", none, 2⟩,
    Token.atEnd 2]

theorem known_names_only_excuse_global :
    ∃ reading, Grammar.parse readsOwnNames = .ok reading ∧
      (Bound.ofStatements [] reading.statements).errors =
        [⟨1, .atLexeme "a", .readGlobalInOwnInitializer⟩,
         ⟨2, .atLexeme "b", .readInOwnInitializer⟩] ∧
      (Bound.ofStatements ["a", "b"] reading.statements).errors =
        [⟨2, .atLexeme "b", .readInOwnInitializer⟩] := by
  have parsed : ∃ reading, Grammar.parse readsOwnNames = .ok reading ∧
      (Bound.ofStatements [] reading.statements).errors =
        [⟨1, .atLexeme "a", .readGlobalInOwnInitializer⟩,
          ⟨2, .atLexeme "b", .readInOwnInitializer⟩] := ⟨_, rfl, rfl⟩
  obtain ⟨reading, hp, errors⟩ := parsed
  refine ⟨reading, hp, errors, ?_⟩
  have removed := ((known_names_only_excuse hp).1 [] ["a", "b"] (by simp)).2.2
  rw [errors] at removed
  exact removed.trans (by decide)

end Lox
