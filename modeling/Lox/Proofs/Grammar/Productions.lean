import Lox.Grammar.Expression
import Mathlib.Computability.Language

/-!
# The grammar as productions

The grammar that the rules read by, as data: each part has a production, a form built of tokens and
parts. What may stand left of an assignment is any operation, and lists of parameters and arguments
have no limit, since an error about these is noted and reading goes on.

A form stands for a language over the kinds of tokens. Which kinds its words start with can be read
off the form (`Form.starts`), and every form has a word (`Form.inhabited`).
-/

namespace Lox.Grammar

/-- The parts of a program. The operations of the given levels are looser ones first. -/
inductive Part where
  | declaration | function | parameters | variable
  | statement | expressionStatement | forStatement | ifStatement | printStatement | returnStatement
  | whileStatement | block
  | expression | operation (levels : List Level) | unary | call | arguments | primary

/-- What a production is made of. A token is of one of the kinds. -/
inductive Form where
  | empty
  | token (kind : Kind) (others : List Kind := [])
  | part (p : Part)
  | both (first second : Form)
  | either (one other : Form)
  | many (each : Form)

def Form.sequence : List Form → Form
  | [] => .empty
  | first :: rest => .both first (sequence rest)

def Form.optional (form : Form) : Form :=
  .either form .empty

def Form.behind : Form → Form
  | .both _ second => second
  | form => form

def Level.operator : Level → Form
  | disjunction => .token .kwOr
  | conjunction => .token .kwAnd
  | equality => .token .bangEqual [.equalEqual]
  | comparison => .token .greater [.greaterEqual, .less, .lessEqual]
  | term => .token .minus [.plus]
  | factor => .token .slash [.star]

def Part.production : Part → Form
  | .declaration => .either (.part .function) (.either (.part .variable) (.part .statement))
  | .function =>
    .sequence [.token .kwFun, .token .identifier, .token .leftParen, .optional (.part .parameters),
      .token .rightParen, .part .block]
  | .parameters =>
    .sequence [.token .identifier, .many (.sequence [.token .comma, .token .identifier])]
  | .variable =>
    .sequence [.token .kwVar, .token .identifier,
      .optional (.sequence [.token .equal, .part .expression]), .token .semicolon]
  | .statement =>
    .either (.part .forStatement) (.either (.part .ifStatement) (.either (.part .printStatement)
      (.either (.part .returnStatement) (.either (.part .whileStatement) (.either (.part .block)
        (.part .expressionStatement))))))
  | .expressionStatement => .sequence [.part .expression, .token .semicolon]
  | .forStatement =>
    .sequence [.token .kwFor, .token .leftParen,
      .either (.token .semicolon) (.either (.part .variable) (.part .expressionStatement)),
      .optional (.part .expression), .token .semicolon, .optional (.part .expression),
      .token .rightParen, .part .statement]
  | .ifStatement =>
    .sequence [.token .kwIf, .token .leftParen, .part .expression, .token .rightParen,
      .part .statement, .optional (.sequence [.token .kwElse, .part .statement])]
  | .printStatement => .sequence [.token .kwPrint, .part .expression, .token .semicolon]
  | .returnStatement =>
    .sequence [.token .kwReturn, .optional (.part .expression), .token .semicolon]
  | .whileStatement =>
    .sequence [.token .kwWhile, .token .leftParen, .part .expression, .token .rightParen,
      .part .statement]
  | .block => .sequence [.token .leftBrace, .many (.part .declaration), .token .rightBrace]
  | .expression =>
    .sequence [.part (.operation Level.all),
      .optional (.sequence [.token .equal, .part .expression])]
  | .operation [] => .part .unary
  | .operation (level :: tighter) =>
    .sequence [.part (.operation tighter),
      .many (.sequence [level.operator, .part (.operation tighter)])]
  | .unary => .either (.sequence [.token .bang [.minus], .part .unary]) (.part .call)
  | .call =>
    .sequence [.part .primary,
      .many (.sequence [.token .leftParen, .optional (.part .arguments), .token .rightParen])]
  | .arguments =>
    .sequence [.part .expression, .many (.sequence [.token .comma, .part .expression])]
  | .primary =>
    .either (.token .number [.string, .kwTrue, .kwFalse, .kwNil, .identifier])
      (.sequence [.token .leftParen, .part .expression, .token .rightParen])

/-- The kinds of the tokens that a form can be written with. -/
inductive Derives : Form → List Kind → Prop
  | empty : Derives .empty []
  | token {kind k : Kind} {others : List Kind} : k ∈ kind :: others →
    Derives (.token kind others) [k]
  | part {p : Part} {word : List Kind} : Derives p.production word → Derives (.part p) word
  | both {a b : Form} {u v : List Kind} : Derives a u → Derives b v → Derives (.both a b) (u ++ v)
  | one {a b : Form} {u : List Kind} : Derives a u → Derives (.either a b) u
  | other {a b : Form} {u : List Kind} : Derives b u → Derives (.either a b) u
  | none {a : Form} : Derives (.many a) []
  | more {a : Form} {u v : List Kind} : Derives a u → Derives (.many a) v →
    Derives (.many a) (u ++ v)

def Form.language (form : Form) : Language Kind :=
  {word | Derives form word}

/-- What can be written as a program, the end token left out. -/
def programs : Language Kind :=
  (Form.many (.part .declaration)).language

-- ---------------------------------------------------------------------------
-- Languages
-- ---------------------------------------------------------------------------

namespace Form

@[simp]
theorem language_empty : Form.empty.language = 1 := by
  ext word
  constructor
  · rintro ⟨⟩
    rfl
  · rintro rfl
    exact Derives.empty

theorem mem_language_token {kind : Kind} {others word : List Kind} :
    word ∈ (Form.token kind others).language ↔ ∃ k ∈ kind :: others, word = [k] := by
  constructor
  · rintro ⟨⟩
    exact ⟨_, ‹_›, rfl⟩
  · rintro ⟨k, mem, rfl⟩
    exact Derives.token mem

theorem language_part (p : Part) : (Form.part p).language = p.production.language := by
  ext word
  constructor
  · rintro ⟨⟩
    assumption
  · exact Derives.part

@[simp]
theorem language_both (a b : Form) : (Form.both a b).language = a.language * b.language := by
  ext word
  rw [Language.mem_mul]
  constructor
  · rintro ⟨⟩
    exact ⟨_, ‹_›, _, ‹_›, rfl⟩
  · rintro ⟨u, hu, v, hv, rfl⟩
    exact Derives.both hu hv

@[simp]
theorem language_either (a b : Form) : (Form.either a b).language = a.language + b.language := by
  ext word
  rw [Language.mem_add]
  constructor
  · rintro ⟨⟩
    · exact .inl ‹_›
    · exact .inr ‹_›
  · rintro (h | h)
    · exact Derives.one h
    · exact Derives.other h

@[simp]
theorem language_sequence_nil : (Form.sequence []).language = 1 :=
  language_empty

@[simp]
theorem language_sequence_cons (first : Form) (rest : List Form) :
    (Form.sequence (first :: rest)).language = first.language * (Form.sequence rest).language :=
  language_both first (Form.sequence rest)

@[simp]
theorem behind_sequence_cons (first : Form) (rest : List Form) :
    (Form.sequence (first :: rest)).behind = Form.sequence rest :=
  rfl

theorem language_many (a : Form) :
    (Form.many a).language = (Form.either (.both a (.many a)) .empty).language := by
  ext word
  constructor
  · rintro ⟨⟩
    · exact Derives.other .empty
    · exact Derives.one (.both ‹_› ‹_›)
  · rintro ⟨⟩
    · rename_i h
      cases h
      exact Derives.more ‹_› ‹_›
    · rename_i h
      cases h
      exact Derives.none

theorem language_list {p : Part} {item : Form}
    (h : p.production = .sequence [item, .many (.sequence [.token .comma, item])]) :
    (Form.part p).language =
      (Form.both item (.optional (.both (.token .comma) (.part p)))).language := by
  have more := language_many (.sequence [.token .comma, item])
  simp only [language_both, language_either, language_part p, h, language_sequence_cons,
    language_sequence_nil, mul_one, Form.optional, language_empty, mul_assoc] at more ⊢
  rw [← more]

theorem language_block_behind :
    Part.block.production.behind.language =
      (Form.either (.both (.part .declaration) Part.block.production.behind)
        (.sequence [.token .rightBrace])).language := by
  have more := language_many (.part .declaration)
  simp only [Part.production, behind_sequence_cons, language_both, language_either,
    language_sequence_cons, language_sequence_nil, mul_one, language_empty] at more ⊢
  nth_rewrite 1 [more]
  rw [add_mul, one_mul, mul_assoc]

end Form

-- ---------------------------------------------------------------------------
-- What words start with
-- ---------------------------------------------------------------------------

def Form.nullable : Form → Bool
  | empty => true
  | token _ _ => false
  | part _ => false
  | both a b => a.nullable && b.nullable
  | either a b => a.nullable || b.nullable
  | many _ => true

def Part.starts : Part → List Kind
  | .declaration => [.kwFun, .kwVar] ++ statementStarts
  | .function => [.kwFun]
  | .parameters => [.identifier]
  | .variable => [.kwVar]
  | .statement => statementStarts
  | .expressionStatement | .expression | .operation _ | .unary | .arguments => operandStarts
  | .forStatement => [.kwFor]
  | .ifStatement => [.kwIf]
  | .printStatement => [.kwPrint]
  | .returnStatement => [.kwReturn]
  | .whileStatement => [.kwWhile]
  | .block => [.leftBrace]
  | .call | .primary => primaryStarts
where
  primaryStarts : List Kind :=
    [.number, .string, .kwTrue, .kwFalse, .kwNil, .identifier, .leftParen]
  operandStarts : List Kind := [.bang, .minus] ++ primaryStarts
  statementStarts : List Kind :=
    [.kwFor, .kwIf, .kwPrint, .kwReturn, .kwWhile, .leftBrace] ++ operandStarts

/-- The kinds that a word of the form can start with. -/
def Form.starts : Form → List Kind
  | empty => []
  | token kind others => kind :: others
  | part p => p.starts
  | both a b => if a.nullable then a.starts ++ b.starts else a.starts
  | either a b => a.starts ++ b.starts
  | many a => a.starts

@[simp]
theorem Form.starts_sequence_token (kind : Kind) (others : List Kind) (rest : List Form) :
    (Form.sequence (.token kind others :: rest)).starts = kind :: others :=
  rfl

/-- The alternative that a word starting with the kind is of, the last one if there is none. -/
def Form.choose (k : Kind) : Form → Form
  | either a b =>
    if a.nullable = false ∧ k ∉ a.starts then b.choose k
    else if b.nullable = false ∧ k ∉ b.starts then a.choose k
    else .either a b
  | form => form

theorem Part.nullable_production (p : Part) : p.production.nullable = false := by
  cases p with
  | operation levels => cases levels <;> rfl
  | _ => rfl

theorem Part.starts_production (p : Part) : ∀ k ∈ p.production.starts, k ∈ p.starts := by
  cases p with
  | operation levels => cases levels <;> exact fun _ h => h
  | _ => decide

theorem Derives.starts {form : Form} {word : List Kind} (h : Derives form word) :
    word = [] ∧ form.nullable = true ∨ ∃ k ∈ word.head?, k ∈ form.starts := by
  induction h with
  | empty | none => exact .inl ⟨rfl, rfl⟩
  | token mem => exact .inr ⟨_, rfl, mem⟩
  | @part p word _ ih =>
    obtain ⟨-, nullable⟩ | ⟨k, first, mem⟩ := ih
    · rw [p.nullable_production] at nullable
      cases nullable
    · exact .inr ⟨k, first, p.starts_production k mem⟩
  | @both a b u v _ _ ihu ihv =>
    obtain ⟨rfl, hn⟩ | ⟨k, first, mem⟩ := ihu
    · obtain ⟨rfl, hn'⟩ | ⟨k, first, mem⟩ := ihv
      · exact .inl ⟨rfl, by simp [Form.nullable, hn, hn']⟩
      · exact .inr ⟨k, first, by simp [Form.starts, hn, mem]⟩
    · refine .inr ⟨k, by simp [List.head?_append, Option.mem_def.1 first], ?_⟩
      simp only [Form.starts]
      split <;> simp [mem]
  | one _ ih =>
    obtain ⟨rfl, hn⟩ | ⟨k, first, mem⟩ := ih
    · exact .inl ⟨rfl, by simp [Form.nullable, hn]⟩
    · exact .inr ⟨k, first, by simp [Form.starts, mem]⟩
  | other _ ih =>
    obtain ⟨rfl, hn⟩ | ⟨k, first, mem⟩ := ih
    · exact .inl ⟨rfl, by simp [Form.nullable, hn]⟩
    · exact .inr ⟨k, first, by simp [Form.starts, mem]⟩
  | @more a u v _ _ ihu ihv =>
    obtain ⟨rfl, hn⟩ | ⟨k, first, mem⟩ := ihu
    · exact ihv
    · exact .inr ⟨k, by simp [List.head?_append, Option.mem_def.1 first], mem⟩

/-- Every word has a first token, of a kind in `P`. -/
def Heads (P : Kind → Prop) (K : Language Kind) : Prop :=
  ∀ word ∈ K, ∃ k ∈ word.head?, P k

section
variable {P Q : Kind → Prop} {K : Language Kind} {form : Form} {k : Kind}

theorem Heads.mono (h : Heads P K) (hp : ∀ k, P k → Q k) : Heads Q K := by
  intro word mem
  obtain ⟨k, first, hk⟩ := h word mem
  exact ⟨k, first, hp k hk⟩

theorem Heads.optional (hs : ∀ k ∈ form.starts, P k) (hK : Heads P K) :
    Heads P (form.language * K) := by
  rintro word ⟨u, hu, v, hv, rfl⟩
  obtain ⟨rfl, -⟩ | ⟨k, first, mem⟩ := Derives.starts hu
  · exact hK v hv
  · exact ⟨k, by simp [List.head?_append, Option.mem_def.1 first], hs k mem⟩

theorem Heads.of_starts (hn : form.nullable = false) (hs : ∀ k ∈ form.starts, P k) :
    Heads P (form.language * K) := by
  rintro word ⟨u, hu, v, hv, rfl⟩
  obtain ⟨-, nullable⟩ | ⟨k, first, mem⟩ := Derives.starts hu
  · rw [hn] at nullable
    cases nullable
  · exact ⟨k, by simp [List.head?_append, Option.mem_def.1 first], hs k mem⟩

theorem Heads.zero (P : Kind → Prop) : Heads P 0 :=
  fun _ mem => absurd mem (Language.notMem_zero _)

theorem Heads.ne_of (h : Heads (fun k => ¬ P k) K) (hk : P k) : Heads (· ≠ k) K :=
  h.mono fun _ none => by
    rintro rfl
    exact none hk

theorem Heads.head?_ne (h : Heads (· ≠ k) K) {word : List Kind} (mem : word ∈ K) :
    word.head? ≠ some k := by
  intro first
  obtain ⟨k', first', ne⟩ := h word mem
  exact ne (Option.some.inj (first'.symm.trans first))

end

-- ---------------------------------------------------------------------------
-- What words are made of
-- ---------------------------------------------------------------------------

def Form.over (P : Part → Bool) (Q : Kind → Bool) : Form → Bool
  | empty => true
  | token kind others => (kind :: others).all Q
  | part p => P p
  | both a b | either a b => a.over P Q && b.over P Q
  | many a => a.over P Q

theorem Part.over_operation {P : Part → Bool} {Q : Kind → Bool} (hu : P .unary = true)
    (ho : ∀ levels, P (.operation levels) = true)
    (hq : ∀ level : Level, level.operator.over P Q = true) (levels : List Level) :
    (Part.operation levels).production.over P Q = true := by
  cases levels with
  | nil => exact hu
  | cons level tighter => simp [Part.production, Form.sequence, Form.over, ho, hq]

theorem Derives.over {P : Part → Bool} {Q : Kind → Bool}
    (closed : ∀ p, P p = true → p.production.over P Q = true) {form : Form} {word : List Kind}
    (h : Derives form word) (hf : form.over P Q = true) : ∀ k ∈ word, Q k = true := by
  induction h with
  | empty | none => simp
  | token mem => simpa using List.all_eq_true.1 hf _ mem
  | part _ ih => exact ih (closed _ hf)
  | both _ _ ihu ihv =>
    obtain ⟨ha, hb⟩ := (Bool.and_eq_true _ _).mp hf
    simpa [or_imp, forall_and] using ⟨ihu ha, ihv hb⟩
  | one _ ih => exact ih ((Bool.and_eq_true _ _).mp hf).1
  | other _ ih => exact ih ((Bool.and_eq_true _ _).mp hf).2
  | more _ _ ihu ihv => simpa [or_imp, forall_and] using ⟨ihu hf, ihv hf⟩

-- ---------------------------------------------------------------------------
-- Braces
-- ---------------------------------------------------------------------------

/-- Each closing brace has an opening one before it, and none is left open. -/
structure Balanced (word : List Kind) : Prop where
  within : ∀ u v, word = u ++ v → u.count .rightBrace ≤ u.count .leftBrace
  settled : word.count .rightBrace = word.count .leftBrace

theorem Balanced.of_none {word : List Kind} (hr : .rightBrace ∉ word) (hl : .leftBrace ∉ word) :
    Balanced word where
  within := by
    rintro u v rfl
    rw [List.count_eq_zero.2 fun mem => hr (List.mem_append_left v mem)]
    exact Nat.zero_le _
  settled := by rw [List.count_eq_zero.2 hr, List.count_eq_zero.2 hl]

theorem Balanced.append {u v : List Kind} (hu : Balanced u) (hv : Balanced v) :
    Balanced (u ++ v) where
  within := by
    intro w rest split
    obtain ⟨next, rfl, inside⟩ | ⟨next, same, -⟩ := List.append_eq_append_iff.1 split
    · rw [List.count_append, List.count_append, hu.settled]
      exact Nat.add_le_add_left (hv.within next rest inside) _
    · exact hu.within w next same
  settled := by rw [List.count_append, List.count_append, hu.settled, hv.settled]

theorem Balanced.block {word : List Kind} (h : Balanced word) :
    Balanced (.leftBrace :: (word ++ [.rightBrace])) where
  within := by
    intro u v split
    cases u with
    | nil => exact Nat.le_refl 0
    | cons k u =>
      obtain ⟨rfl, behind⟩ := List.cons.inj split
      obtain ⟨next, rfl, last⟩ | ⟨next, same, -⟩ := List.append_eq_append_iff.1 behind
      · -- The closing brace is the only one in `next`.
        have one := (List.prefix_append next v).count_le .rightBrace
        have settled := h.settled
        rw [← last] at one
        simp at one ⊢
        omega
      · have within := h.within u next same
        simp
        omega
  settled := by simp [h.settled]

theorem Derives.balanced {form : Form} {word : List Kind} (h : Derives form word) :
    (form.over (fun _ => true) (fun k => k ≠ .leftBrace && k ≠ .rightBrace) = true →
      Balanced word) ∧
      (form = Part.block.production.behind → ∃ body, word = body ++ [.rightBrace] ∧ Balanced body) ∧
      (form = Part.block.production → Balanced word) := by
  induction h with
  | empty | none => exact ⟨fun _ => .of_none (by simp) (by simp), nofun, nofun⟩
  | token mem =>
    refine ⟨fun unbraced => ?_, nofun, nofun⟩
    have ne := List.all_eq_true.1 unbraced _ mem
    simp only [Bool.and_eq_true, decide_eq_true_eq] at ne
    exact .of_none (by simpa using ne.2.symm) (by simpa using ne.1.symm)
  | @part p word _ ih =>
    refine ⟨fun _ => ?_, nofun, nofun⟩
    cases p with
    | block => exact ih.2.2 rfl
    | operation levels =>
      exact ih.1 (Part.over_operation rfl (fun _ => rfl) (by rintro ⟨⟩ <;> rfl) levels)
    | _ => exact ih.1 rfl
  | @both a b u v first second ihu ihv =>
    refine ⟨fun unbraced => ?_, fun same => ?_, fun same => ?_⟩
    · obtain ⟨ha, hb⟩ := (Bool.and_eq_true _ _).mp unbraced
      exact (ihu.1 ha).append (ihv.1 hb)
    · obtain ⟨rfl, rfl⟩ := Form.both.inj same
      have brace : v ∈ (Form.sequence [.token .rightBrace]).language := second
      rw [Form.language_sequence_cons, Form.language_sequence_nil, mul_one] at brace
      obtain ⟨k, mem, rfl⟩ := Form.mem_language_token.1 brace
      obtain rfl := List.mem_singleton.1 mem
      exact ⟨u, rfl, ihu.1 rfl⟩
    · obtain ⟨rfl, rfl⟩ := Form.both.inj same
      obtain ⟨body, rfl, balanced⟩ := ihv.2.1 rfl
      obtain ⟨k, mem, rfl⟩ := Form.mem_language_token.1 first
      obtain rfl := List.mem_singleton.1 mem
      exact balanced.block
  | one _ ih => exact ⟨fun unbraced => ih.1 ((Bool.and_eq_true _ _).mp unbraced).1, nofun, nofun⟩
  | other _ ih => exact ⟨fun unbraced => ih.1 ((Bool.and_eq_true _ _).mp unbraced).2, nofun, nofun⟩
  | more _ _ ihu ihv =>
    exact ⟨fun unbraced => (ihu.1 unbraced).append (ihv.1 unbraced), nofun, nofun⟩

-- ---------------------------------------------------------------------------
-- Words
-- ---------------------------------------------------------------------------

theorem Derives.kind (kind : Kind) (others : List Kind) : Derives (.token kind others) [kind] :=
  .token (List.mem_cons_self ..)

def Form.writable (P : Part → Bool) : Form → Bool
  | empty | token _ _ | many _ => true
  | part p => P p
  | both a b => a.writable P && b.writable P
  | either a b => a.writable P || b.writable P

theorem Form.exists_word {P : Part → Bool}
    (parts : ∀ p, P p = true → ∃ word, Derives (.part p) word) {form : Form}
    (h : form.writable P = true) : ∃ word, Derives form word := by
  induction form with
  | empty => exact ⟨[], .empty⟩
  | token kind others => exact ⟨[kind], .kind kind others⟩
  | part p => exact parts p h
  | both a b iha ihb =>
    obtain ⟨ha, hb⟩ := (Bool.and_eq_true _ _).mp h
    obtain ⟨u, hu⟩ := iha ha
    obtain ⟨v, hv⟩ := ihb hb
    exact ⟨u ++ v, .both hu hv⟩
  | either a b iha ihb =>
    rcases (Bool.or_eq_true _ _).mp h with ha | hb
    · obtain ⟨u, hu⟩ := iha ha
      exact ⟨u, .one hu⟩
    · obtain ⟨v, hv⟩ := ihb hb
      exact ⟨v, .other hv⟩
  | many a => exact ⟨[], .none⟩

/-- How far a part is from tokens: its production can be written with parts that are nearer. -/
def Part.rank : Part → Nat
  | .parameters | .variable | .returnStatement | .block | .primary => 0
  | .declaration | .function | .statement | .call => 1
  | .forStatement | .unary => 2
  | .operation levels => 3 + levels.length
  | .expression => 4 + Level.all.length
  | .expressionStatement | .ifStatement | .printStatement | .whileStatement | .arguments =>
    5 + Level.all.length

theorem Part.writable_production (p : Part) :
    p.production.writable (fun q => decide (q.rank < p.rank)) = true := by
  cases p with
  | operation levels =>
    cases levels with
    | nil => rfl
    | cons level tighter => simp [production, Form.sequence, Form.writable, rank]
  | _ => rfl

theorem Part.inhabited (p : Part) : ∃ word, Derives (.part p) word := by
  induction hr : p.rank using Nat.strong_induction_on generalizing p with
  | _ rank ih =>
    have nearer (q : Part) (hq : decide (q.rank < p.rank) = true) :
        ∃ word, Derives (.part q) word := ih q.rank (hr ▸ of_decide_eq_true hq) q rfl
    obtain ⟨word, derives⟩ := Form.exists_word nearer p.writable_production
    exact ⟨word, .part derives⟩

theorem Form.inhabited (form : Form) : ∃ word, word ∈ form.language := by
  have writable : form.writable (fun _ => true) = true := by
    induction form with
    | both a b iha ihb | either a b iha ihb => simp [Form.writable, iha, ihb]
    | _ => rfl
  exact exists_word (fun p _ => p.inhabited) writable

end Lox.Grammar
