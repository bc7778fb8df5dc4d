import Lox.Proofs.Syntax.Display

/-!
# Expressions told by their texts

What is read from a source is built of its tokens, so its expressions are legible as long as their
numbers are finite. Expressions of any two sources have the same text exactly if they are the same
up to the lines of their tokens and the depths of their names (`texts_tell_expressions`).
-/

namespace Lox

/-- No number of the expression is infinite. -/
def Expr.Finite (e : Expr) : Prop :=
  ∀ value, .literal (.number value) ∈ e.nodes → value.isFinite

/-- The expression stands in what is read from the source. Names may be bound by now. -/
def Source.Reads (source : String) (e : Expr) : Prop :=
  ∃ reading, Grammar.parse (Scan.ofSource source).tokens = .ok reading ∧
    ∃ x ∈ Stmt.listNodes reading.statements, e.unbound = x.unbound

-- ---------------------------------------------------------------------------
-- Names and depths
-- ---------------------------------------------------------------------------

mutual

theorem Expr.nodes_unbound : ∀ e : Expr, e.unbound.nodes = e.nodes.map Expr.unbound
  | .literal _ => rfl
  | .grouping inner => by simp [Expr.unbound, Expr.nodes, inner.nodes_unbound]
  | .unary _ operand => by simp [Expr.unbound, Expr.nodes, operand.nodes_unbound]
  | .binary left _ right | .logical left _ right => by
    simp [Expr.unbound, Expr.nodes, left.nodes_unbound, right.nodes_unbound]
  | .variable _ _ => rfl
  | .assign _ value _ => by simp [Expr.unbound, Expr.nodes, value.nodes_unbound]
  | .call callee _ arguments => by
    simp [Expr.unbound, Expr.nodes, callee.nodes_unbound, Expr.listNodes_listUnbound arguments]

theorem Expr.listNodes_listUnbound : ∀ es : List Expr,
    Expr.listNodes (Expr.listUnbound es) = (Expr.listNodes es).map Expr.unbound
  | [] => rfl
  | e :: rest => by
    simp [Expr.listUnbound, Expr.listNodes, e.nodes_unbound, Expr.listNodes_listUnbound rest]

end

theorem Expr.literal_mem_unbound {e : Expr} {value : Constant} :
    .literal value ∈ e.unbound.nodes ↔ .literal value ∈ e.nodes := by
  rw [e.nodes_unbound, List.mem_map]
  constructor
  · rintro ⟨x, hx, same⟩
    cases x with
    | literal => exact same ▸ hx
    | _ => cases same
  · exact fun h => ⟨_, h, rfl⟩

-- ---------------------------------------------------------------------------
-- Trees of sources
-- ---------------------------------------------------------------------------

theorem Source.Scanned.legible {t : Token} (h : Scanned t) {value : Constant}
    (stands : Constant.ofToken? t = some value) (finite : ∀ x, value = .number x → x.isFinite) :
    value.Legible := by
  cases value with
  | number x => exact finite x rfl
  | string text =>
    obtain ⟨after, lexeme⟩ := h.lexeme
    have value := h.value
    unfold Constant.ofToken? at stands
    split at stands
    · cases stands
    · next kind literal =>
      cases stands
      rw [kind] at lexeme
      obtain ⟨body, spelled, inside⟩ := lexeme.string_text
      rw [kind, literal, spelled] at value
      cases value
      simpa [Constant.Legible] using inside
    all_goals cases stands
  | _ => trivial

theorem Drawn.legible {source : String} {nodes : List Expr} {keys : List Token}
    (h : Drawn (· ∈ (Scan.ofSource source).tokens) nodes keys) {x : Expr} (hx : x ∈ nodes)
    (finite : x.Finite) : x.Legible where
  kinded := h.kinded x hx
  token t ht := by
    refine Source.scanned_of_mem (h.token x hx t ht) fun atEnd => ?_
    have kinded := h.kinded x hx
    cases x with
    | literal | grouping => cases ht
    | _ => cases ht; simp [Expr.Kinded, Kind.binaryOperators, atEnd] at kinded
  constant value hv := by
    cases x with
    | literal =>
      cases hv
      rcases h.constant _ hx _ rfl with rfl | ⟨t, ht, stands⟩
      · trivial
      · have read : Source.Scanned t := by
          refine Source.scanned_of_mem ht fun atEnd => ?_
          simp [Constant.ofToken?, atEnd] at stands
        refine read.legible stands fun number same => finite number ?_
        exact same ▸ Expr.mem_nodes_self _
    | _ => cases hv

theorem Source.Reads.legible {source : String} {e : Expr} (h : Source.Reads source e)
    (finite : e.Finite) : ∃ x : Expr, e.bare = x.bare ∧ ∀ y ∈ x.nodes, y.Legible := by
  obtain ⟨reading, parsed, x, hx, same⟩ := h
  have drawn := (Grammar.parse_draws parsed).statements
  refine ⟨x, congrArg (Expr.relabel fun _ => 0) same, fun y hy => ?_⟩
  refine drawn.legible (Stmt.closed_listNodes _ x hx hy) fun value literal => finite value ?_
  rw [← Expr.literal_mem_unbound, same, Expr.literal_mem_unbound]
  exact x.closed_nodes y hy literal

/-- The texts of two expressions that are read from sources, and whose numbers are finite, are the
same exactly if the expressions are, up to the lines of their tokens and the depths of their
names. -/
theorem Source.texts_tell_expressions {a b : String} {e f : Expr} (he : Source.Reads a e)
    (hf : Source.Reads b f) (finite : e.Finite) (finite' : f.Finite) :
    e.text = f.text ↔ e.bare = f.bare := by
  obtain ⟨x, same, legible⟩ := he.legible finite
  obtain ⟨y, same', legible'⟩ := hf.legible finite'
  calc
    e.text = f.text ↔ x.text = y.text := by
      rw [← e.text_bare, ← f.text_bare, same, same', x.text_bare, y.text_bare]
    _ ↔ x.bare = y.bare := Expr.text_eq_iff legible legible'
    _ ↔ e.bare = f.bare := by rw [same, same']

/-- `-x * 0.5` where the tokens behind the minus stand on a line of their own. -/
def negatedHalf (line : Nat) (depth : Option Nat) : Expr :=
  .binary (.unary ⟨.minus, "-", none, 1⟩ (.variable ⟨.identifier, "x", none, line⟩ depth))
    ⟨.star, "*", none, line⟩ (.literal (.number 0.5))

theorem Source.texts_tell_expressions_negation :
    Reads "print -x * 0.50;" (negatedHalf 1 none) ∧
      Reads "for (var x;;) -\nx * 0.5;" (negatedHalf 2 (some 0)) ∧
      (negatedHalf 1 none).text = (negatedHalf 2 (some 0)).text ∧
      (negatedHalf 1 none).bare = (negatedHalf 2 (some 0)).bare := by
  have first : (Scan.ofSource "print -x * 0.50;").tokens =
      [⟨.kwPrint, "print", none, 1⟩, ⟨.minus, "-", none, 1⟩, ⟨.identifier, "x", none, 1⟩,
        ⟨.star, "*", none, 1⟩, ⟨.number, "0.50", some (.number 0.5), 1⟩, ⟨.semicolon, ";", none, 1⟩,
        Token.atEnd 1] := by decide +kernel
  have second : (Scan.ofSource "for (var x;;) -\nx * 0.5;").tokens =
      [⟨.kwFor, "for", none, 1⟩, ⟨.leftParen, "(", none, 1⟩, ⟨.kwVar, "var", none, 1⟩,
        ⟨.identifier, "x", none, 1⟩, ⟨.semicolon, ";", none, 1⟩, ⟨.semicolon, ";", none, 1⟩,
        ⟨.rightParen, ")", none, 1⟩, ⟨.minus, "-", none, 1⟩, ⟨.identifier, "x", none, 2⟩,
        ⟨.star, "*", none, 2⟩, ⟨.number, "0.5", some (.number 0.5), 2⟩, ⟨.semicolon, ";", none, 2⟩,
        Token.atEnd 2] := by decide +kernel
  have reads : Reads "print -x * 0.50;" (negatedHalf 1 none) := by
    refine ⟨⟨[.print (negatedHalf 1 none)], []⟩, ?_, _, .head _, rfl⟩
    rw [first]
    rfl
  have reads' : Reads "for (var x;;) -\nx * 0.5;" (negatedHalf 2 (some 0)) := by
    refine ⟨⟨[Grammar.forLoop (some (.variable ⟨.identifier, "x", none, 1⟩ none)) none none
      (.expression (negatedHalf 2 none))], []⟩, ?_, _, .tail _ (.head _), rfl⟩
    rw [second]
    rfl
  have finite (line : Nat) (depth : Option Nat) : (negatedHalf line depth).Finite := by
    intro value h
    have half : value = 0.5 := by simpa [negatedHalf, Expr.nodes] using h
    rw [half]
    decide +kernel
  have text : (negatedHalf 1 none).text = (negatedHalf 2 (some 0)).text := rfl
  exact ⟨reads, reads', text,
    (texts_tell_expressions reads reads' (finite _ _) (finite _ _)).1 text⟩

end Lox
