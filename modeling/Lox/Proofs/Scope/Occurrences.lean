import Lox.Proofs.Scope.Sequence
import Mathlib.Data.List.Basic

/-!
# Which binding errors there are

The errors of a program, said without scopes that change on the way: a program has occurrences,
which are its declarations, its returns and the variables that it reads, each where it stands; and
each occurrence by itself is one error or none. `binding_errors_are_exact`: binding reports the
errors of the occurrences, in their order.
-/

namespace Lox

-- ---------------------------------------------------------------------------
-- Occurrences
-- ---------------------------------------------------------------------------

/-- Where a statement stands: in which scope, and behind which statements there. -/
inductive Standing where
  | topLevel (before : List Stmt)
  | block (around : Standing) (before : List Stmt)
  /-- In a function, behind some of its parameters and then of the statements of its body. -/
  | body (around : Standing) (parameters : List Token) (before : List Stmt)

namespace Standing

def inFunction : Standing → Bool
  | topLevel _ => false
  | block around _ => around.inFunction
  | body .. => true

def isLocal : Standing → Bool
  | topLevel _ => false
  | _ => true

def declared : Standing → List String
  | topLevel before => Stmt.declaredNames before
  | block _ before => Stmt.declaredNames before
  | body _ parameters before => parameters.map Token.lexeme ++ Stmt.declaredNames before

def behind (t : Stmt) : Standing → Standing
  | topLevel before => topLevel (before ++ [t])
  | block around before => block around (before ++ [t])
  | body around parameters before => body around parameters (before ++ [t])

end Standing

/-- A place of a program that may be an error. -/
inductive Occurrence where
  | returning (keyword : Token) (place : Standing)
  /-- The name of a variable, a function or a parameter where it is declared. -/
  | declaration (name : Token) (place : Standing)
  /-- A variable that is read, and the variable whose initializer reads it, if it is in one. -/
  | read (name : Token) (initialized : Option (Token × Standing))

/-- The error that an occurrence is, in a program that finds some global names bound. -/
def Occurrence.error? (globals : List String) : Occurrence → Option BindingError
  | returning keyword place =>
    if place.inFunction then none else some (.at keyword .returnOutsideFunction)
  | declaration name place =>
    if place.isLocal ∧ name.lexeme ∈ place.declared then some (.at name .alreadyDeclared) else none
  | read _ none => none
  | read name (some (initialized, place)) =>
    if name.lexeme ≠ initialized.lexeme then none
    else if place.isLocal then some (.at name .readInOwnInitializer)
    else if name.lexeme ∈ globals ∨ name.lexeme ∈ place.declared then none
    else some (.at name .readGlobalInOwnInitializer)

mutual

def Expr.readNames : Expr → List Token
  | .literal _ => []
  | .grouping inner => inner.readNames
  | .unary _ operand => operand.readNames
  | .binary left _ right => left.readNames ++ right.readNames
  | .logical left _ right => left.readNames ++ right.readNames
  | .variable name _ => [name]
  | .assign _ value _ => value.readNames
  | .call callee _ arguments => callee.readNames ++ Expr.listReadNames arguments

def Expr.listReadNames : List Expr → List Token
  | [] => []
  | e :: rest => e.readNames ++ Expr.listReadNames rest

end

def Expr.occurrences (initialized : Option (Token × Standing)) (e : Expr) : List Occurrence :=
  e.readNames.map (.read · initialized)

def Occurrence.parameters (around : Standing) (before : List Token) : List Token → List Occurrence
  | [] => []
  | p :: rest =>
    declaration p (.body around before []) :: Occurrence.parameters around (before ++ [p]) rest

mutual

/-- The occurrences in a statement, in the order of the program. -/
def Stmt.occurrences (place : Standing) : Stmt → List Occurrence
  | .expression value => value.occurrences none
  | .print value => value.occurrences none
  | .variable name none => [.declaration name place]
  | .variable name (some initializer) =>
    .declaration name place :: initializer.occurrences (some (name, place))
  | .block body => Stmt.listOccurrences (.block place []) body
  -- only blocks and bodies are scopes: a branch stands where the whole statement does
  | .branch condition consequent none =>
    condition.occurrences none ++ consequent.occurrences place
  | .branch condition consequent (some alternative) =>
    condition.occurrences none ++ consequent.occurrences place ++ alternative.occurrences place
  | .loop condition body => condition.occurrences none ++ body.occurrences place
  | .function name parameters body =>
    .declaration name place :: Occurrence.parameters place [] parameters
      ++ Stmt.listOccurrences (.body place parameters []) body
  | .return keyword none => [.returning keyword place]
  | .return keyword (some value) => .returning keyword place :: value.occurrences none

def Stmt.listOccurrences (place : Standing) : List Stmt → List Occurrence
  | [] => []
  | first :: rest => first.occurrences place ++ Stmt.listOccurrences (place.behind first) rest

end

-- ---------------------------------------------------------------------------
-- Places and scopes
-- ---------------------------------------------------------------------------

namespace Scopes

theorem innermost_mark (s : Scopes) (name : String) (ready : Bool) :
    (s.mark name ready).innermost = s.innermost.mark name ready := by
  unfold mark innermost
  cases s.locals <;> rfl

theorem innermost_declare (s : Scopes) (name : String) :
    (s.declare name).innermost =
      if s.locals = [] ∧ s.innermost.declares name then s.innermost
      else s.innermost.mark name false := by
  unfold declare
  cases hl : s.locals with
  | nil => by_cases known : s.globals.declares name <;> simp [innermost, mark, hl, known]
  | cons scope outer => simp [innermost, mark, hl]

theorem lookup_innermost_introduce (s : Scopes) (name key : String) :
    (s.introduce name).innermost.lookup key =
      if key = name then some true else s.innermost.lookup key := by
  rw [introduce, define, innermost_mark, Scope.lookup_mark]
  split
  · rfl
  · next other =>
    rw [innermost_declare]
    split
    · rfl
    · rw [Scope.lookup_mark, if_neg other]

end Scopes

def Standing.known (globals : List String) : Standing → List String
  | topLevel before => globals ++ Stmt.declaredNames before
  | place => place.declared

/-- Scopes that binding has come to at a place: in the innermost one all names before are ready, and
it is a local one if the place is. -/
structure Standing.Matches (globals : List String) (place : Standing) (s : Scopes) : Prop where
  isLocal : place.isLocal ↔ s.locals ≠ []
  lookup : ∀ name, s.innermost.lookup name = if name ∈ place.known globals then some true else none

theorem Standing.known_of_isLocal {globals : List String} {place : Standing} (h : place.isLocal) :
    place.known globals = place.declared := by
  cases place with
  | topLevel before => cases h
  | block around before => rfl
  | body around parameters before => rfl

theorem Standing.mem_known {globals : List String} {place : Standing} (h : ¬ place.isLocal)
    {name : String} : name ∈ place.known globals ↔ name ∈ globals ∨ name ∈ place.declared := by
  cases place with
  | topLevel before => exact List.mem_append
  | block around before => exact absurd rfl h
  | body around parameters before => exact absurd rfl h

theorem Standing.known_behind (globals : List String) (place : Standing) (t : Stmt) :
    (place.behind t).known globals =
      place.known globals ++ (t.declared?.map Token.lexeme).toList := by
  have more (before : List Stmt) : Stmt.declaredNames (before ++ [t]) =
      Stmt.declaredNames before ++ (t.declared?.map Token.lexeme).toList := by
    rw [Stmt.declaredNames_append, Stmt.declaredNames_cons]
    simp [Stmt.declaredNames]
  cases place <;> simp [behind, known, declared, more]

namespace Standing.Matches

variable {globals : List String} {place : Standing} {s : Scopes}

theorem topLevel (globals : List String) :
    (Standing.topLevel []).Matches globals (Scopes.topLevel globals) where
  isLocal := by simp [Standing.isLocal, Scopes.topLevel]
  lookup name := by
    induction globals with
    | nil => rfl
    | cons first rest ih =>
      simp only [known, Stmt.declaredNames, Scopes.topLevel, Scopes.innermost] at ih ⊢
      by_cases same : name = first
      · simp [same]
      · simpa [List.lookup_cons, same, beq_eq_false_iff_ne.2 same] using ih

theorem introduce (h : place.Matches globals s) {next : Standing} {name : String}
    (hl : next.isLocal = place.isLocal) (hk : next.known globals = place.known globals ++ [name]) :
    next.Matches globals (s.introduce name) where
  isLocal := by
    rw [hl, h.isLocal, Scopes.locals_introduce, Ne, Ne, List.modifyHead_eq_nil_iff]
  lookup key := by
    rw [Scopes.lookup_innermost_introduce, h.lookup, hk]
    by_cases same : key = name <;> simp [same]

theorem after (h : place.Matches globals s) (t : Stmt) :
    (place.behind t).Matches globals (s.after t) := by
  have same : (place.behind t).isLocal = place.isLocal := by cases place <;> rfl
  have more := place.known_behind globals t
  unfold Scopes.after
  cases ht : t.declared? with
  | some token => exact h.introduce same (by simpa [ht] using more)
  | none =>
    rw [ht, Option.map_none, Option.toList_none, List.append_nil] at more
    exact ⟨same ▸ h.isLocal, more ▸ h.lookup⟩

theorem enter (place : Standing) (s : Scopes) :
    (Standing.block place []).Matches globals s.enter where
  isLocal := by simp [Standing.isLocal, Scopes.enter]
  lookup name := rfl

theorem parameter {before : List Token} (h : (Standing.body place before []).Matches globals s)
    (p : Token) : (Standing.body place (before ++ [p]) []).Matches globals (s.introduce p.lexeme) :=
  h.introduce rfl (by simp [known, declared, Stmt.declaredNames])

theorem inside (place : Standing) (s : Scopes) (parameters : List Token) :
    (Standing.body place parameters []).Matches globals (s.inside parameters) where
  isLocal := by simp [Standing.isLocal, Scopes.locals_inside]
  lookup name := by
    rw [Scopes.innermost_of_locals (s.locals_inside parameters), Scope.lookup_introduceAll]
    simp [known, declared, Stmt.declaredNames]

/-! What binding reports at an occurrence, and what the occurrence is by itself. -/

theorem declares_iff (h : place.Matches globals s) (name : String) :
    s.innermost.declares name ↔ name ∈ place.known globals := by
  rw [Scope.declares, h.lookup]
  split <;> simp_all

theorem redeclared (h : place.Matches globals s) (name : Token) :
    s.redeclared name = ((Occurrence.declaration name place).error? globals).toList := by
  unfold Scopes.redeclared Occurrence.error?
  by_cases top : s.locals = []
  · simp [top, show place.isLocal = false by simpa [top] using h.isLocal]
  · have inner := h.isLocal.2 top
    have declares := h.declares_iff name.lexeme
    rw [known_of_isLocal inner] at declares
    by_cases twice : name.lexeme ∈ place.declared
    · simp [top, declares.2 twice, inner, twice]
    · simp [top, twice, declares]

theorem awaits_eq_false (h : place.Matches globals s) (name : String) :
    s.innermost.awaits name = false := by
  rw [Scope.awaits, h.lookup]
  split <;> rfl

theorem readErrors (h : place.Matches globals s) (name : Token) : s.readErrors name = [] := by
  simp [Scopes.readErrors, h.awaits_eq_false]

theorem awaits_declare (h : place.Matches globals s) (initialized name : String) :
    (s.declare initialized).innermost.awaits name ↔
      name = initialized ∧ (place.isLocal ∨ name ∉ place.known globals) := by
  rw [Scopes.innermost_declare, h.isLocal, ← h.declares_iff]
  by_cases known : s.locals = [] ∧ s.innermost.declares initialized
  · -- a global that is known stays ready while it is declared once more
    rw [if_pos known, h.awaits_eq_false]
    simp only [Bool.false_eq_true, false_iff]
    rintro ⟨rfl, inner | unknown⟩
    · exact inner known.1
    · exact unknown known.2
  · rw [if_neg known, Scope.awaits_mark, h.awaits_eq_false]
    by_cases same : name = initialized
    · subst same
      rw [if_pos rfl]
      exact iff_of_true rfl ⟨rfl, Classical.not_and_iff_not_or_not.1 known⟩
    · simp [same]

theorem readErrors_declare (h : place.Matches globals s) (initialized name : Token) :
    (s.declare initialized.lexeme).readErrors name =
      ((Occurrence.read name (some (initialized, place))).error? globals).toList := by
  have waits := h.awaits_declare initialized.lexeme name.lexeme
  have top : (s.declare initialized.lexeme).locals.isEmpty = !place.isLocal := by
    rw [Scopes.locals_declare, Bool.eq_iff_iff, Bool.not_eq_true', ← Bool.not_eq_true, h.isLocal]
    simp
  rw [Scopes.readErrors, Occurrence.error?, top]
  by_cases same : name.lexeme = initialized.lexeme
  · rw [if_neg (fun other : name.lexeme ≠ initialized.lexeme => other same)]
    by_cases inner : place.isLocal
    · rw [if_pos (waits.2 ⟨same, .inl inner⟩), if_pos inner]
      simp [inner]
    · rw [mem_known inner] at waits
      rw [if_neg inner]
      by_cases bound : name.lexeme ∈ globals ∨ name.lexeme ∈ place.declared
      · rw [if_neg (fun h => (waits.1 h).2.elim inner (· bound)), if_pos bound]
        rfl
      · rw [if_pos (waits.2 ⟨same, .inr bound⟩), if_neg bound]
        simp [inner]
  · simp [same, waits]

end Standing.Matches

-- ---------------------------------------------------------------------------
-- Programs
-- ---------------------------------------------------------------------------

mutual

theorem Expr.bindingErrors_eq (s : Scopes) :
    ∀ e : Expr, e.bindingErrors s = e.readNames.flatMap s.readErrors
  | .literal _ => rfl
  | .grouping inner => inner.bindingErrors_eq s
  | .unary _ operand => operand.bindingErrors_eq s
  | .binary left _ right => by
    rw [Expr.bindingErrors, Expr.readNames, List.flatMap_append, left.bindingErrors_eq s,
      right.bindingErrors_eq s]
  | .logical left _ right => by
    rw [Expr.bindingErrors, Expr.readNames, List.flatMap_append, left.bindingErrors_eq s,
      right.bindingErrors_eq s]
  | .variable name _ => (List.append_nil _).symm
  | .assign _ value _ => value.bindingErrors_eq s
  | .call callee _ arguments => by
    rw [Expr.bindingErrors, Expr.readNames, List.flatMap_append, callee.bindingErrors_eq s,
      Expr.listBindingErrors_eq s arguments]

theorem Expr.listBindingErrors_eq (s : Scopes) :
    ∀ es : List Expr, Expr.listBindingErrors s es = (Expr.listReadNames es).flatMap s.readErrors
  | [] => rfl
  | e :: rest => by
    rw [Expr.listBindingErrors, Expr.listReadNames, List.flatMap_append, e.bindingErrors_eq s,
      Expr.listBindingErrors_eq s rest]

end

section
variable {globals : List String} {place : Standing} {s : Scopes}

theorem Occurrence.filterMap_error?_cons (first : Occurrence) (rest : List Occurrence) :
    (first :: rest).filterMap (Occurrence.error? globals) =
      (first.error? globals).toList ++ rest.filterMap (Occurrence.error? globals) := by
  rw [List.filterMap_cons]
  cases first.error? globals <;> rfl

theorem Occurrence.error?_returning (keyword : Token) (place : Standing) :
    ((Occurrence.returning keyword place).error? globals).toList =
      if place.inFunction then [] else [.at keyword .returnOutsideFunction] := by
  rw [Occurrence.error?]
  split <;> rfl

theorem Expr.filterMap_occurrences (initialized : Option (Token × Standing)) (e : Expr) :
    (e.occurrences initialized).filterMap (Occurrence.error? globals) =
      e.readNames.flatMap fun name =>
      ((Occurrence.read name initialized).error? globals).toList := by
  rw [Expr.occurrences, List.filterMap_map, List.filterMap_eq_flatMap_toList]
  rfl

theorem Standing.Matches.expression (h : place.Matches globals s) (e : Expr) :
    e.bindingErrors s = (e.occurrences none).filterMap (Occurrence.error? globals) := by
  rw [e.bindingErrors_eq, e.filterMap_occurrences]
  exact congrArg (List.flatMap · e.readNames) (funext h.readErrors)

theorem Standing.Matches.initializer (h : place.Matches globals s) (name : Token) (e : Expr) :
    e.bindingErrors (s.declare name.lexeme) =
      (e.occurrences (some (name, place))).filterMap (Occurrence.error? globals) := by
  rw [e.bindingErrors_eq, e.filterMap_occurrences]
  exact congrArg (List.flatMap · e.readNames) (funext (h.readErrors_declare name))

theorem Standing.Matches.parameterErrors {before : List Token}
    (h : (Standing.body place before []).Matches globals s) (parameters : List Token) :
    s.parameterErrors parameters =
      (Occurrence.parameters place before parameters).filterMap (Occurrence.error? globals) := by
  induction parameters generalizing s before with
  | nil => rfl
  | cons p rest ih =>
    rw [Scopes.parameterErrors, Occurrence.parameters, Occurrence.filterMap_error?_cons,
      h.redeclared, ih (h.parameter p)]

end

mutual

theorem Stmt.bindingErrors_eq {globals : List String} :
    ∀ (t : Stmt) {place : Standing} {s : Scopes},
    place.Matches globals s → t.bindingErrors s place.inFunction =
      (t.occurrences place).filterMap (Occurrence.error? globals)
  | .expression value, _, _, h => h.expression value
  | .print value, _, _, h => h.expression value
  | .variable name none, _, _, h => by
    rw [Stmt.bindingErrors, Stmt.occurrences, Occurrence.filterMap_error?_cons, h.redeclared]
    rfl
  | .variable name (some initializer), _, _, h => by
    rw [Stmt.bindingErrors, Stmt.occurrences, Occurrence.filterMap_error?_cons, h.redeclared,
      Scopes.optionalErrors, h.initializer]
  | .block body, place, s, h => Stmt.listBindingErrors_eq body (.enter place s)
  | .branch condition consequent none, _, _, h => by
    rw [Stmt.bindingErrors, Stmt.occurrences, List.filterMap_append, h.expression condition,
      consequent.bindingErrors_eq h]
  | .branch condition consequent (some alternative), _, _, h => by
    rw [Stmt.bindingErrors, Stmt.occurrences, List.filterMap_append, List.filterMap_append,
      h.expression condition, consequent.bindingErrors_eq h, alternative.bindingErrors_eq h]
  | .loop condition body, _, _, h => by
    rw [Stmt.bindingErrors, Stmt.occurrences, List.filterMap_append, h.expression condition,
      body.bindingErrors_eq h]
  | .function name parameters body, place, s, h => by
    have entered : (Standing.body place [] []).Matches globals (s.introduce name.lexeme).enter :=
      .inside place _ []
    have inner : (Standing.body place parameters []).Matches globals
        ((s.introduce name.lexeme).inside parameters) := .inside place _ parameters
    rw [Stmt.bindingErrors, Stmt.occurrences, List.cons_append, Occurrence.filterMap_error?_cons,
      List.filterMap_append, h.redeclared, entered.parameterErrors,
      List.append_assoc, ← Stmt.listBindingErrors_eq body inner]
    rfl
  | .return keyword none, place, _, h => by
    rw [Stmt.bindingErrors, Stmt.occurrences, Occurrence.filterMap_error?_cons,
      Occurrence.error?_returning]
    rfl
  | .return keyword (some value), place, _, h => by
    rw [Stmt.bindingErrors, Stmt.occurrences, Occurrence.filterMap_error?_cons,
      Occurrence.error?_returning, Scopes.optionalErrors, h.expression]

theorem Stmt.listBindingErrors_eq {globals : List String} : ∀ (ts : List Stmt) {place : Standing}
    {s : Scopes}, place.Matches globals s → Stmt.listBindingErrors s place.inFunction ts =
      (Stmt.listOccurrences place ts).filterMap (Occurrence.error? globals)
  | [], _, _, _ => rfl
  | first :: rest, place, s, h => by
    have same : (place.behind first).inFunction = place.inFunction := by cases place <;> rfl
    rw [Stmt.listBindingErrors, Stmt.listOccurrences, List.filterMap_append,
      first.bindingErrors_eq h, ← same, Stmt.listBindingErrors_eq rest (h.after first)]

end

/-- Binding a program reports, in the order of the program, one error for each occurrence that is
one, and nothing else: a `return` outside of every function; a local declaration of a name that was
declared before in the same block, or as a parameter or before in the body of the same function; a
variable read in its own initializer, if it is local, or if it is global and neither bound by an
earlier program nor declared before at top level. -/
theorem binding_errors_are_exact (globals : List String) (statements : List Stmt) :
    (Bound.ofStatements globals statements).errors =
      (Stmt.listOccurrences (.topLevel []) statements).filterMap (Occurrence.error? globals) :=
  Stmt.listBindingErrors_eq statements (.topLevel globals)

/-- `var a = a; return; { var a = a; var a; }` with an error in each statement, if `a` is not
bound. -/
example :
    let a : Token := ⟨.identifier, "a", none, 1⟩
    let back : Token := ⟨.kwReturn, "return", none, 1⟩
    let own : Stmt := .variable a (some (.variable a none))
    let program : List Stmt := [own, .return back none, .block [own, .variable a none]]
    (Stmt.listOccurrences (.topLevel []) program).filterMap (Occurrence.error? []) =
      [.at a .readGlobalInOwnInitializer, .at back .returnOutsideFunction,
        .at a .readInOwnInitializer, .at a .alreadyDeclared] := rfl

end Lox
