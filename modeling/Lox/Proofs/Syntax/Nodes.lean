import Lox.Scope.Binding

/-!
# The expressions in a tree

`nodes` lists every expression that stands anywhere in a tree, in the bodies of functions too, and
`keys` the tokens that statements keep for themselves. An expression keeps one token at most, of a
kind that its constructor asks for (`Kinded`). Binding names changes neither the tokens nor which
expressions there are: the expressions of a bound tree are those of the tree, each bound in the
scopes it stands in (`mem_nodes_bindList`).
-/

namespace Lox

-- ---------------------------------------------------------------------------
-- Expressions and tokens
-- ---------------------------------------------------------------------------

mutual

def Expr.nodes : Expr → List Expr
  | .literal value => [.literal value]
  | .grouping inner => .grouping inner :: inner.nodes
  | .unary operator operand => .unary operator operand :: operand.nodes
  | .binary left operator right => .binary left operator right :: (left.nodes ++ right.nodes)
  | .logical left operator right => .logical left operator right :: (left.nodes ++ right.nodes)
  | .variable name depth => [.variable name depth]
  | .assign name value depth => .assign name value depth :: value.nodes
  | .call callee paren arguments =>
    .call callee paren arguments :: (callee.nodes ++ Expr.listNodes arguments)

def Expr.listNodes : List Expr → List Expr
  | [] => []
  | e :: rest => e.nodes ++ Expr.listNodes rest

end

mutual

def Stmt.nodes : Stmt → List Expr
  | .expression value => value.nodes
  | .print value => value.nodes
  | .variable _ none => []
  | .variable _ (some initializer) => initializer.nodes
  | .block body => Stmt.listNodes body
  | .branch condition consequent none => condition.nodes ++ consequent.nodes
  | .branch condition consequent (some alternative) =>
    condition.nodes ++ consequent.nodes ++ alternative.nodes
  | .loop condition body => condition.nodes ++ body.nodes
  | .function _ _ body => Stmt.listNodes body
  | .return _ none => []
  | .return _ (some value) => value.nodes

def Stmt.listNodes : List Stmt → List Expr
  | [] => []
  | first :: rest => first.nodes ++ Stmt.listNodes rest

end

mutual

/-- The names that statements declare, the parameters among them, and the keywords of returns. -/
def Stmt.keys : Stmt → List Token
  | .expression _ | .print _ => []
  | .variable name _ => [name]
  | .block body => Stmt.listKeys body
  | .branch _ consequent none => consequent.keys
  | .branch _ consequent (some alternative) => consequent.keys ++ alternative.keys
  | .loop _ body => body.keys
  | .function name parameters body => name :: (parameters ++ Stmt.listKeys body)
  | .return keyword _ => [keyword]

def Stmt.listKeys : List Stmt → List Token
  | [] => []
  | first :: rest => first.keys ++ Stmt.listKeys rest

end

/-- The operators between two operands that are both evaluated. -/
def Kind.binaryOperators : List Kind :=
  [.plus, .minus, .star, .slash, .greater, .greaterEqual, .less, .lessEqual, .equalEqual,
   .bangEqual]

namespace Expr

def token? : Expr → Option Token
  | .literal _ | .grouping _ => none
  | .unary operator _ | .binary _ operator _ | .logical _ operator _ => some operator
  | .variable name _ | .assign name _ _ => some name
  | .call _ paren _ => some paren

def constant? : Expr → Option Constant
  | .literal value => some value
  | _ => none

/-- The token of the expression is of a kind that makes sense there. -/
def Kinded : Expr → Prop
  | .literal _ | .grouping _ => True
  | .unary operator _ => operator.kind = .bang ∨ operator.kind = .minus
  | .binary _ operator _ => operator.kind ∈ Kind.binaryOperators
  | .logical _ operator _ => operator.kind = .kwAnd ∨ operator.kind = .kwOr
  | .variable name _ | .assign name _ _ => name.kind = .identifier
  | .call _ paren _ => paren.kind = .rightParen

theorem mem_nodes_self (e : Expr) : e ∈ e.nodes := by
  cases e <;> simp [nodes]

-- ---------------------------------------------------------------------------
-- Expressions in expressions
-- ---------------------------------------------------------------------------

/-- With an expression all expressions in it are listed. -/
def Closed (nodes : List Expr) : Prop :=
  ∀ x ∈ nodes, x.nodes ⊆ nodes

namespace Closed

variable {x : Expr} {nodes more : List Expr}

theorem nil : Closed [] := by
  intro x hx
  cases hx

theorem append (h : Closed nodes) (h' : Closed more) : Closed (nodes ++ more) := by
  intro x hx
  rcases List.mem_append.1 hx with hx | hx
  · exact List.subset_append_of_subset_left more (h x hx)
  · exact List.subset_append_of_subset_right nodes (h' x hx)

theorem cons (hx : x.nodes = x :: nodes) (h : Closed nodes) : Closed (x :: nodes) := by
  intro y hy
  rcases List.mem_cons.1 hy with rfl | hy
  · rw [hx]
    exact List.Subset.refl _
  · exact List.subset_cons_of_subset x (h y hy)

end Closed

end Expr

mutual

theorem Expr.closed_nodes : ∀ e : Expr, Closed e.nodes
  | .literal _ | .variable _ _ => .cons rfl .nil
  | .grouping inner => .cons rfl inner.closed_nodes
  | .unary _ operand => .cons rfl operand.closed_nodes
  | .binary left _ right | .logical left _ right =>
    .cons rfl (left.closed_nodes.append right.closed_nodes)
  | .assign _ value _ => .cons rfl value.closed_nodes
  | .call callee _ arguments =>
    .cons rfl (callee.closed_nodes.append (Expr.closed_listNodes arguments))

theorem Expr.closed_listNodes : ∀ es : List Expr, Closed (Expr.listNodes es)
  | [] => .nil
  | e :: rest => e.closed_nodes.append (Expr.closed_listNodes rest)

end

mutual

theorem Stmt.closed_nodes : ∀ t : Stmt, Expr.Closed t.nodes
  | .expression value | .print value | .variable _ (some value) | .return _ (some value) =>
    value.closed_nodes
  | .variable _ none | .return _ none => .nil
  | .block body | .function _ _ body => Stmt.closed_listNodes body
  | .branch condition consequent none => condition.closed_nodes.append consequent.closed_nodes
  | .branch condition consequent (some alternative) =>
    (condition.closed_nodes.append consequent.closed_nodes).append alternative.closed_nodes
  | .loop condition body => condition.closed_nodes.append body.closed_nodes

theorem Stmt.closed_listNodes : ∀ ts : List Stmt, Expr.Closed (Stmt.listNodes ts)
  | [] => .nil
  | first :: rest => first.closed_nodes.append (Stmt.closed_listNodes rest)

end

namespace Expr

-- ---------------------------------------------------------------------------
-- Bound trees
-- ---------------------------------------------------------------------------

@[simp]
theorem kinded_bind (s : Scopes) (e : Expr) : (e.bind s).Kinded ↔ e.Kinded := by
  cases e <;> simp [bind, Kinded]

@[simp]
theorem token?_bind (s : Scopes) (e : Expr) : (e.bind s).token? = e.token? := by
  cases e <;> simp [bind, token?]

end Expr

mutual

theorem Expr.nodes_bind (s : Scopes) : ∀ e : Expr, (e.bind s).nodes = e.nodes.map (Expr.bind s)
  | .literal _ => by simp [Expr.bind, Expr.nodes]
  | .grouping inner => by simp [Expr.bind, Expr.nodes, inner.nodes_bind s]
  | .unary _ operand => by simp [Expr.bind, Expr.nodes, operand.nodes_bind s]
  | .binary left _ right => by
    simp [Expr.bind, Expr.nodes, left.nodes_bind s, right.nodes_bind s]
  | .logical left _ right => by
    simp [Expr.bind, Expr.nodes, left.nodes_bind s, right.nodes_bind s]
  | .variable _ _ => by simp [Expr.bind, Expr.nodes]
  | .assign _ value _ => by simp [Expr.bind, Expr.nodes, value.nodes_bind s]
  | .call callee _ arguments => by
    simp [Expr.bind, Expr.nodes, callee.nodes_bind s, Expr.listNodes_bindList s arguments]

theorem Expr.listNodes_bindList (s : Scopes) :
    ∀ es : List Expr, Expr.listNodes (Expr.bindList s es) = (Expr.listNodes es).map (Expr.bind s)
  | [] => rfl
  | e :: rest => by
    simp [Expr.bindList, Expr.listNodes, e.nodes_bind s, Expr.listNodes_bindList s rest]

end

/-- The expression is one of the list, bound in some scopes. -/
def Expr.BoundFrom (es : List Expr) (x : Expr) : Prop :=
  ∃ y ∈ es, ∃ s : Scopes, x = y.bind s

namespace Expr.BoundFrom

variable {x : Expr} {es fs : List Expr}

theorem left (h : x.BoundFrom es) : x.BoundFrom (es ++ fs) := by
  obtain ⟨y, hy, s, rfl⟩ := h
  exact ⟨y, List.mem_append_left fs hy, s, rfl⟩

theorem right (h : x.BoundFrom fs) : x.BoundFrom (es ++ fs) := by
  obtain ⟨y, hy, s, rfl⟩ := h
  exact ⟨y, List.mem_append_right es hy, s, rfl⟩

theorem of_mem_bind {s : Scopes} {e : Expr} (h : x ∈ (e.bind s).nodes) : x.BoundFrom e.nodes := by
  rw [e.nodes_bind] at h
  obtain ⟨y, hy, rfl⟩ := List.mem_map.mp h
  exact ⟨y, hy, s, rfl⟩

end Expr.BoundFrom

mutual

theorem Stmt.mem_nodes_bind {x : Expr} (s : Scopes) :
    ∀ t : Stmt, x ∈ (t.bind s).nodes → x.BoundFrom t.nodes
  | .expression _, h | .print _, h => .of_mem_bind h
  | .variable _ none, h | .return _ none, h => by simp [Stmt.bind, Stmt.nodes] at h
  | .variable _ (some _), h | .return _ (some _), h => .of_mem_bind h
  | .block body, h => Stmt.mem_nodes_bindList s.enter body h
  | .branch condition consequent none, h => by
    rcases List.mem_append.mp h with h | h
    · exact .left (.of_mem_bind h)
    · exact .right (consequent.mem_nodes_bind s h)
  | .branch condition consequent (some alternative), h => by
    rcases List.mem_append.mp h with h | h
    · rcases List.mem_append.mp h with h | h
      · exact .left (.left (.of_mem_bind h))
      · exact .left (.right (consequent.mem_nodes_bind s h))
    · exact .right (alternative.mem_nodes_bind s h)
  | .loop condition body, h => by
    rcases List.mem_append.mp h with h | h
    · exact .left (.of_mem_bind h)
    · exact .right (body.mem_nodes_bind s h)
  | .function _ _ body, h => Stmt.mem_nodes_bindList _ body h

theorem Stmt.mem_nodes_bindList {x : Expr} (s : Scopes) :
    ∀ ts : List Stmt, x ∈ Stmt.listNodes (Stmt.bindList s ts) → x.BoundFrom (Stmt.listNodes ts)
  | [], h => by cases h
  | first :: rest, h => by
    rcases List.mem_append.mp h with h | h
    · exact .left (first.mem_nodes_bind s h)
    · exact .right (Stmt.mem_nodes_bindList (s.after first) rest h)

end

end Lox
