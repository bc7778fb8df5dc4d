import Lox.Proofs.Source.Comments
import Lox.Proofs.Source.Lines

/-!
# Maximal munch

What a piece may be, said of its text and of the text behind it, without a word on how it is found.
A text can be cut into such pieces in one way only (`cuts_iff`), and the tokens and the lexical
errors of a source are those of its pieces, in order.
-/

namespace Lox

/-- What a token is, wherever it stands. -/
def Token.bare (t : Token) : Kind × String × Option Literal :=
  (t.kind, t.lexeme, t.literal)

namespace Source

-- ---------------------------------------------------------------------------
-- The lexical grammar
-- ---------------------------------------------------------------------------

def Stops (p : Char → Bool) (after : List Char) : Prop :=
  ∀ c ∈ after.head?, p c = false

def punctuation : List (Char × Kind) :=
  [('(', .leftParen), (')', .rightParen), ('\x7b', .leftBrace), ('\x7d', .rightBrace),
   (',', .comma), ('.', .dot), ('-', .minus), ('+', .plus), (';', .semicolon), ('*', .star)]

/-- Characters that are lexemes alone, and of another kind with a directly following `=`. -/
def operators : List (Char × Kind × Kind) :=
  [('!', .bang, .bangEqual), ('=', .equal, .equalEqual), ('<', .less, .lessEqual),
    ('>', .greater, .greaterEqual)]

def Digits (text : List Char) : Prop :=
  text ≠ [] ∧ ∀ c ∈ text, c.isDigit

def Numeral (text : List Char) : Prop :=
  Digits text ∨ ∃ whole fraction, text = whole ++ '.' :: fraction ∧ Digits whole ∧ Digits fraction

/-- A word is of a keyword's kind if it spells the keyword, and else an identifier. -/
def Spells (word : String) (kind : Kind) : Prop :=
  (word, kind) ∈ Kind.keywords ∨ kind = .identifier ∧ ∀ entry ∈ Kind.keywords, entry.1 ≠ word

/-- The lexemes of each kind, by their text and what follows it. -/
inductive Lexeme (after : List Char) : Kind → List Char → Prop
  | punctuation {c : Char} {kind : Kind} : (c, kind) ∈ punctuation → Lexeme after kind [c]
  | operator {c : Char} {kind long : Kind} :
    (c, kind, long) ∈ operators → Stops (· = '=') after → Lexeme after kind [c]
  | withEqual {c : Char} {short kind : Kind} :
    (c, short, kind) ∈ operators → Lexeme after kind [c, '=']
  /-- A slash that starts no comment. -/
  | slash : Stops (fun c => c = '/' || c = '*') after → Lexeme after .slash ['/']
  | string {body : List Char} : '"' ∉ body → Lexeme after .string ('"' :: body ++ ['"'])
  /-- A number without a fraction, where no point with a digit behind it follows. -/
  | whole {digits : List Char} : Digits digits → Stops Char.isDigit after →
    (∀ d rest, after = '.' :: d :: rest → d.isDigit = false) → Lexeme after .number digits
  | fraction {digits digits' : List Char} : Digits digits → Digits digits' →
    Stops Char.isDigit after → Lexeme after .number (digits ++ '.' :: digits')
  | word {c : Char} {more : List Char} {kind : Kind} : startsWord c →
    (∀ d ∈ more, continuesWord d) →
    Stops continuesWord after → Spells (String.ofList (c :: more)) kind →
      Lexeme after kind (c :: more)

def fixedLexemes : List (Kind × List Char) :=
  punctuation.map (fun entry => (entry.2, [entry.1])) ++
    operators.map (fun entry => (entry.2.1, [entry.1])) ++
    operators.map (fun entry => (entry.2.2, [entry.1, '='])) ++
    (.slash, ['/']) :: Kind.keywords.map fun entry => (entry.2, entry.1.toList)

inductive Spelling : Kind → List Char → Prop
  | fixed {kind : Kind} {text : List Char} : (kind, text) ∈ fixedLexemes → Spelling kind text
  | string {body : List Char} : '"' ∉ body → Spelling .string ('"' :: body ++ ['"'])
  | number {text : List Char} : Numeral text → Spelling .number text
  | name {c : Char} {more : List Char} : startsWord c → (∀ d ∈ more, continuesWord d) →
    Spelling .identifier (c :: more)

def marked : List Char :=
  [' ', '\r', '\t', '\n', '/', '"'] ++ punctuation.map Prod.fst ++ operators.map Prod.fst

/-- A character that no other piece starts with. -/
structure Stray (c : Char) : Prop where
  unmarked : c ∉ marked
  digit : c.isDigit = false
  word : startsWord c = false

/-- What a piece is, by its text and what follows it. What is not closed is the last piece. -/
def Piece.Munched (after : List Char) : Piece → Prop
  | .blank c => c = ' ' ∨ c = '\r' ∨ c = '\t' ∨ c = '\n'
  | .lineComment body => '\n' ∉ body ∧ Stops (· ≠ '\n') after
  | .blockComment body => Closing body
  | .lexeme kind text => Lexeme after kind text
  | .stray c => Stray c
  | .openString body => '"' ∉ body ∧ after = []
  | .openComment body => (∀ closed rest, body = closed ++ rest → ¬ Closing closed) ∧ after = []

/-- Ways to cut a text into pieces. -/
inductive Cuts : List Char → List Piece → Prop
  | nil : Cuts [] []
  | cons {p : Piece} {after : List Char} {ps : List Piece} :
    p.Munched after → Cuts after ps → Cuts (p.text ++ after) (p :: ps)

-- ---------------------------------------------------------------------------
-- Runs
-- ---------------------------------------------------------------------------

section
variable {p : Char → Bool}

theorem stops_nil : Stops p [] := by
  simp [Stops]

theorem stops_dropWhile (text : List Char) : Stops p (text.dropWhile p) := by
  intro c hc
  have head := List.head?_dropWhile_not p text
  rw [Option.mem_def.1 hc] at head
  simpa using head

theorem takeWhile_of_stops {run after : List Char} (hr : ∀ c ∈ run, p c) (ha : Stops p after) :
    (run ++ after).takeWhile p = run ∧ (run ++ after).dropWhile p = after := by
  have none_taken : after.takeWhile p = [] ∧ after.dropWhile p = after := by
    cases after with
    | nil => exact ⟨rfl, rfl⟩
    | cons c after => simp [ha c rfl]
  rw [List.takeWhile_append_of_pos hr, List.dropWhile_append_of_pos hr, none_taken.1, none_taken.2]
  simp

theorem forall_ne_of_notMem {x : Char} {text : List Char} (h : x ∉ text) :
    ∀ c ∈ text, decide (c ≠ x) = true := by
  intro c hc
  refine decide_eq_true ?_
  rintro rfl
  exact h hc

theorem notMem_takeWhile_ne (x : Char) (text : List Char) : x ∉ text.takeWhile (· ≠ x) := by
  intro h
  have := List.all_eq_true.1 (List.all_takeWhile (p := (· ≠ x)) (l := text)) x h
  simp at this

end

-- ---------------------------------------------------------------------------
-- Single cuts
-- ---------------------------------------------------------------------------

theorem single?_eq_some {c : Char} {kind : Kind} :
    single? c = some kind ↔ (c, kind) ∈ punctuation := by
  constructor
  · intro h
    unfold single? at h
    split at h <;> cases h <;> decide
  · intro h
    simp only [punctuation, List.mem_cons, Prod.mk.injEq, List.not_mem_nil, or_false] at h
    obtain ⟨rfl, rfl⟩ | ⟨rfl, rfl⟩ | ⟨rfl, rfl⟩ | ⟨rfl, rfl⟩ | ⟨rfl, rfl⟩ | ⟨rfl, rfl⟩ |
      ⟨rfl, rfl⟩ |
      ⟨rfl, rfl⟩ | ⟨rfl, rfl⟩ | ⟨rfl, rfl⟩ := h <;> rfl

theorem withEqual?_eq_some {c : Char} {kinds : Kind × Kind} :
    withEqual? c = some kinds ↔ (c, kinds) ∈ operators := by
  constructor
  · intro h
    unfold withEqual? at h
    split at h <;> cases h <;> decide
  · intro h
    simp only [operators, List.mem_cons, Prod.mk.injEq, List.not_mem_nil, or_false] at h
    obtain ⟨rfl, rfl⟩ | ⟨rfl, rfl⟩ | ⟨rfl, rfl⟩ | ⟨rfl, rfl⟩ := h <;> rfl

theorem isBlank_iff {c : Char} : isBlank c ↔ c = ' ' ∨ c = '\r' ∨ c = '\t' ∨ c = '\n' := by
  simp [isBlank, or_assoc]

theorem spells_ofWord (word : String) : Spells word (Kind.ofWord word) := by
  unfold Kind.ofWord
  cases hk : Kind.keywords.lookup word with
  | none =>
    refine .inr ⟨rfl, fun entry he same => ?_⟩
    have := List.lookup_eq_none_iff.1 hk entry he
    simp [same] at this
  | some kind =>
    obtain ⟨before, after, hl, -⟩ := List.lookup_eq_some_iff.1 hk
    exact .inl (by rw [hl]; simp)

theorem ofWord_of_spells {word : String} {kind : Kind} (h : Spells word kind) :
    Kind.ofWord word = kind := by
  have table : ∀ entry ∈ Kind.keywords, Kind.ofWord entry.1 = entry.2 := by decide
  rcases h with h | ⟨rfl, h⟩
  · exact table _ h
  · unfold Kind.ofWord
    rw [List.lookup_eq_none_iff.2 fun entry he => by simpa using (h entry he).symm]
    rfl

theorem slashPiece_line (line : Nat) (rest : List Char) :
    slashPiece line ('/' :: rest) =
      .onLine line (.lineComment (rest.takeWhile (· ≠ '\n')), rest.dropWhile (· ≠ '\n')) :=
  rfl

theorem slashPiece_block (line : Nat) (rest : List Char) :
    slashPiece line ('*' :: rest) = match closeComment 0 line rest with
      | ⟨body, last, some after⟩ => ⟨.blockComment body, last, after⟩
      | ⟨body, last, none⟩ => ⟨.openComment body, last, []⟩ :=
  rfl

theorem munched_slashPiece (line : Nat) (rest : List Char) :
    (slashPiece line rest).piece.Munched (slashPiece line rest).rest := by
  unfold slashPiece
  split
  · next rest => exact ⟨notMem_takeWhile_ne '\n' rest, stops_dropWhile rest⟩
  · next rest =>
    have closes {after : List Char} (h : (closeComment 0 line rest).rest = some after) :
        Closing (closeComment 0 line rest).text := closing_of_closeComment_zero h
    have whole := closeComment_append 0 line rest
    rcases hc : closeComment 0 line rest with ⟨body, last, _ | after⟩ <;> rw [hc] at whole closes
    · refine ⟨fun closed after hb closing => ?_, rfl⟩
      obtain rfl : body = rest := by simpa using whole
      rw [hb, (closing.closeComment line after).1] at hc
      cases congrArg Stretch.rest hc
    · exact closes rfl
  · next line block =>
    refine .slash fun c hc => ?_
    cases rest with
    | nil => cases hc
    | cons d rest =>
      cases hc
      simp only [Bool.or_eq_false_iff, decide_eq_false_iff_not]
      exact ⟨fun h => line rest (h ▸ rfl), fun h => block rest (h ▸ rfl)⟩

theorem closeString_text (line : Nat) (text : List Char) :
    ∃ body, '"' ∉ body ∧ (closeString line text).text =
      body ++ if (closeString line text).rest.isSome then ['"'] else [] := by
  fun_induction closeString line text with
  | case1 | case2 => exact ⟨[], List.not_mem_nil, rfl⟩
  | case3 line c rest plain ih =>
    obtain ⟨body, inside, read⟩ := ih
    have first : '"' ≠ c := fun h => plain h.symm
    exact ⟨c :: body, List.not_mem_cons_of_ne_of_not_mem first inside, congrArg (c :: ·) read⟩

theorem munched_stringPiece (line : Nat) (rest : List Char) :
    (stringPiece line rest).piece.Munched (stringPiece line rest).rest := by
  obtain ⟨body, inside, read⟩ := closeString_text line rest
  unfold stringPiece
  generalize closeString line rest = s at read ⊢
  obtain ⟨text, last, _ | after⟩ := s
  · obtain rfl : text = body := by simpa using read
    exact ⟨inside, rfl⟩
  · obtain rfl : text = body ++ ['"'] := read
    exact .string inside

theorem mem_takeWhile_isDigit {text : List Char} : ∀ c ∈ text.takeWhile Char.isDigit, c.isDigit :=
  fun _ hc => List.all_eq_true.1 List.all_takeWhile _ hc

theorem munched_numberPiece {first : Char} (hf : first.isDigit) (rest : List Char) :
    (numberPiece first rest).1.Munched (numberPiece first rest).2 := by
  have whole : Digits (first :: rest.takeWhile Char.isDigit) :=
    ⟨List.cons_ne_nil _ _, List.forall_mem_cons.2 ⟨hf, mem_takeWhile_isDigit⟩⟩
  have behind := stops_dropWhile (p := Char.isDigit) rest
  unfold numberPiece
  split
  · next d after hd =>
    split
    · next digit =>
      have fraction : Digits (d :: after.takeWhile Char.isDigit) :=
        ⟨List.cons_ne_nil _ _, List.forall_mem_cons.2 ⟨digit, mem_takeWhile_isDigit⟩⟩
      exact .fraction whole fraction (stops_dropWhile after)
    · next digit =>
      rw [hd] at behind
      refine .whole whole behind ?_
      rintro _ _ ⟨⟩
      simpa using digit
  · next point =>
    refine .whole whole behind fun d after hd => ?_
    exact absurd hd (point d after)

theorem munched_wordPiece {first : Char} (hf : startsWord first) (rest : List Char) :
    (wordPiece first rest).1.Munched (wordPiece first rest).2 :=
  .word hf (fun _ hc => List.all_eq_true.1 List.all_takeWhile _ hc) (stops_dropWhile rest)
    (spells_ofWord _)

theorem munched_operatorPiece {c : Char} {short long : Kind} (h : (c, short, long) ∈ operators)
    (rest : List Char) :
    (operatorPiece c short long rest).1.Munched (operatorPiece c short long rest).2 := by
  unfold operatorPiece
  split
  · exact .withEqual h
  · next alone =>
    refine .operator h fun d hd => ?_
    cases rest with
    | nil => cases hd
    | cons d' rest =>
      cases hd
      simp only [decide_eq_false_iff_not]
      exact fun h => alone rest (h ▸ rfl)

theorem munched_cut (line : Nat) (c : Char) (rest : List Char) :
    (cut line c rest).piece.Munched (cut line c rest).rest := by
  unfold cut
  split
  · next kind h => exact .punctuation (single?_eq_some.1 h)
  · next h => exact munched_operatorPiece (withEqual?_eq_some.1 h) rest
  · next hs hw =>
    split
    · next blank => exact isBlank_iff.1 blank
    split
    · exact munched_slashPiece line rest
    split
    · exact munched_stringPiece line rest
    split
    · next digit => exact munched_numberPiece digit rest
    split
    · next word => exact munched_wordPiece word rest
    · next blank slash quote digit word =>
      simp only [Bool.not_eq_true] at digit word
      refine ⟨fun hc => ?_, digit, word⟩
      simp only [marked, List.mem_append, List.mem_cons, List.not_mem_nil, or_false,
        List.mem_map] at hc
      obtain (hc | ⟨entry, he, rfl⟩) | ⟨entry, he, rfl⟩ := hc
      · simp_all [isBlank]
      · rw [single?_eq_some.2 he] at hs
        cases hs
      · rw [withEqual?_eq_some.2 he] at hw
        cases hw

/-! The other way round: what obeys the grammar is what is cut, from whatever line on. -/

def Cut.parts (k : Cut) : Piece × List Char :=
  (k.piece, k.rest)

@[simp]
theorem Cut.parts_onLine (line : Nat) (p : Piece × List Char) : (onLine line p).parts = p :=
  rfl

section
variable {line : Nat}

theorem cut_unmarked {c : Char} (hc : c ∉ marked) (rest : List Char) :
    (cut line c rest).parts =
      if c.isDigit then numberPiece c rest
      else if startsWord c then wordPiece c rest
      else (.stray c, rest) := by
  simp only [marked, List.mem_append, List.mem_map, not_or, not_exists, not_and] at hc
  have hs : single? c = none := Option.eq_none_iff_forall_ne_some.2 fun kind h =>
    hc.1.2 (c, kind) (single?_eq_some.1 h) rfl
  have hw : withEqual? c = none := Option.eq_none_iff_forall_ne_some.2 fun kinds h =>
    hc.2 (c, kinds) (withEqual?_eq_some.1 h) rfl
  have others := hc.1.1
  simp only [List.mem_cons, List.not_mem_nil, or_false, not_or] at others
  unfold cut
  rw [hs, hw]
  simp [isBlank, others, apply_ite Cut.parts]

theorem notMem_marked {c : Char} (hc : c.isDigit ∨ startsWord c) : c ∉ marked := by
  have table : marked.all fun d => !(d.isDigit || startsWord d) := by decide
  intro hm
  have plain := List.all_eq_true.1 table c hm
  simp_all

theorem cut_digit {c : Char} (hc : c.isDigit) (rest : List Char) :
    (cut line c rest).parts = numberPiece c rest := by
  rw [cut_unmarked (notMem_marked (.inl hc)), if_pos hc]

theorem isDigit_of_startsWord {c : Char} (hc : startsWord c) : c.isDigit = false := by
  have hc :
      (decide (c.val ≥ 65 ∧ c.val ≤ 90) || (c.val ≥ 97 && c.val ≤ 122) || c == '_') = true :=
    hc
  simp only [Bool.or_eq_true, Bool.and_eq_true, decide_eq_true_eq, beq_iff_eq, Char.isDigit,
    ← Bool.not_eq_true, ge_iff_le, UInt32.le_iff_toNat_le] at hc ⊢
  rcases hc with hc | rfl
  · simp at hc ⊢
    omega
  · decide

theorem cut_word {c : Char} (hc : startsWord c) (rest : List Char) :
    (cut line c rest).parts = wordPiece c rest := by
  rw [cut_unmarked (notMem_marked (.inr hc)), if_neg (by simp [isDigit_of_startsWord hc]),
    if_pos hc]

theorem numberPiece_whole {first : Char} {more after : List Char} (hd : ∀ c ∈ more, c.isDigit)
    (hs : Stops Char.isDigit after) (hp : ∀ d rest, after = '.' :: d :: rest → d.isDigit = false) :
    numberPiece first (more ++ after) = (.lexeme .number (first :: more), after) := by
  unfold numberPiece
  rw [(takeWhile_of_stops hd hs).1, (takeWhile_of_stops hd hs).2]
  split
  · next d rest => simp [hp d rest rfl]
  · rfl

theorem numberPiece_fraction {first : Char} {more digits after : List Char}
    (hd : ∀ c ∈ more, c.isDigit) (hf : Digits digits) (hs : Stops Char.isDigit after) :
    numberPiece first (more ++ '.' :: digits ++ after) =
      (.lexeme .number (first :: more ++ '.' :: digits), after) := by
  obtain ⟨hne, hall⟩ := hf
  cases digits with
  | nil => exact absurd rfl hne
  | cons d digits =>
    have point : Stops Char.isDigit ('.' :: (d :: digits) ++ after) := by
      rintro c ⟨⟩
      decide
    obtain ⟨digit, fraction⟩ := List.forall_mem_cons.1 hall
    unfold numberPiece
    rw [List.append_assoc, (takeWhile_of_stops hd point).1, (takeWhile_of_stops hd point).2]
    simp [digit, takeWhile_of_stops fraction hs]

theorem cut_operator {c : Char} {short long : Kind} (h : (c, short, long) ∈ operators)
    (rest : List Char) : (cut line c rest).parts = operatorPiece c short long rest := by
  have table : ∀ entry ∈ operators, single? entry.1 = none := by decide
  unfold cut
  rw [table _ h, withEqual?_eq_some.2 h]
  rfl

theorem closeString_closed {body : List Char} (hb : '"' ∉ body) (line : Nat) (after : List Char) :
    ∃ last, closeString line (body ++ '"' :: after) = ⟨body ++ ['"'], last, some after⟩ := by
  induction body generalizing line with
  | nil => exact ⟨line, rfl⟩
  | cons c body ih =>
    obtain ⟨last, read⟩ := ih (List.not_mem_of_not_mem_cons hb) (lineBehind line c)
    refine ⟨last, ?_⟩
    rw [List.cons_append, closeString, read]
    · rfl
    · exact fun h => List.ne_of_not_mem_cons hb h.symm

theorem closeString_open {body : List Char} (hb : '"' ∉ body) (line : Nat) :
    ∃ last, closeString line body = ⟨body, last, none⟩ := by
  induction body generalizing line with
  | nil => exact ⟨line, rfl⟩
  | cons c body ih =>
    obtain ⟨last, read⟩ := ih (List.not_mem_of_not_mem_cons hb) (lineBehind line c)
    refine ⟨last, ?_⟩
    rw [closeString, read]
    · rfl
    · exact fun h => List.ne_of_not_mem_cons hb h.symm

theorem cut_of_lexeme {kind : Kind} {text after : List Char} (h : Lexeme after kind text) {c : Char}
    {rest : List Char} (ht : text ++ after = c :: rest) :
    (cut line c rest).parts = (.lexeme kind text, after) := by
  cases h with
  | punctuation hp =>
    cases ht
    unfold cut
    rw [single?_eq_some.2 hp]
    rfl
  | operator ho hs =>
    cases ht
    rw [cut_operator ho]
    cases after with
    | nil => rfl
    | cons d after =>
      have short : d ≠ '=' := by simpa using hs d rfl
      simp [operatorPiece, short]
  | withEqual ho =>
    cases ht
    rw [cut_operator ho]
    rfl
  | slash hs =>
    cases ht
    show (slashPiece line after).parts = _
    cases after with
    | nil => rfl
    | cons d after =>
      obtain ⟨line, block⟩ : d ≠ '/' ∧ d ≠ '*' := by simpa using hs d rfl
      simp [slashPiece, line, block]
  | @string body hb =>
    rw [List.append_assoc] at ht
    cases ht
    show (stringPiece line (body ++ '"' :: after)).parts = _
    obtain ⟨last, read⟩ := closeString_closed hb line after
    rw [stringPiece, read]
    rfl
  | whole hd hs hp =>
    obtain ⟨hne, hall⟩ := hd
    cases text with
    | nil => exact absurd rfl hne
    | cons first more =>
      cases ht
      obtain ⟨digit, digits⟩ := List.forall_mem_cons.1 hall
      rw [cut_digit digit]
      exact numberPiece_whole digits hs hp
  | @fraction whole digits hd hf hs =>
    obtain ⟨hne, hall⟩ := hd
    cases whole with
    | nil => exact absurd rfl hne
    | cons first more =>
      cases ht
      obtain ⟨digit, more_digits⟩ := List.forall_mem_cons.1 hall
      rw [cut_digit digit]
      exact numberPiece_fraction more_digits hf hs
  | @word _ more _ hc hm hs hk =>
    cases ht
    rw [cut_word hc]
    show wordPiece _ (more ++ after) = _
    simp only [wordPiece, takeWhile_of_stops hm hs, ofWord_of_spells hk]

/-- A piece that obeys the grammar, at the front of a text, is the one that is cut from it. -/
theorem cut_of_munched {p : Piece} {after : List Char} (hp : p.Munched after) {c : Char}
    {rest : List Char} (ht : p.text ++ after = c :: rest) :
    (cut line c rest).parts = (p, after) := by
  cases p with
  | blank b =>
    cases ht
    rcases hp with rfl | rfl | rfl | rfl <;> rfl
  | lineComment body =>
    cases ht
    have split := takeWhile_of_stops (forall_ne_of_notMem hp.1) hp.2
    show (slashPiece line ('/' :: (body ++ after))).parts = _
    rw [slashPiece_line, split.1, split.2, Cut.parts_onLine]
  | blockComment body =>
    cases ht
    show (slashPiece line ('*' :: (body ++ after))).parts = _
    rw [slashPiece_block, (Closing.closeComment hp line after).1]
    rfl
  | lexeme kind text => exact cut_of_lexeme hp ht
  | stray s =>
    cases ht
    rw [cut_unmarked hp.unmarked, hp.digit, hp.word]
    rfl
  | openString body =>
    obtain ⟨inside, rfl⟩ := hp
    cases ht
    show (stringPiece line (body ++ [])).parts = _
    obtain ⟨last, read⟩ := closeString_open inside line
    rw [List.append_nil, stringPiece, read]
    rfl
  | openComment body =>
    obtain ⟨never, rfl⟩ := hp
    cases ht
    show (slashPiece line ('*' :: (body ++ []))).parts = _
    have closes {after : List Char} (h : (closeComment 0 line body).rest = some after) :
        Closing (closeComment 0 line body).text := closing_of_closeComment_zero h
    have whole := closeComment_append 0 line body
    rw [List.append_nil, slashPiece_block]
    generalize closeComment 0 line body = read at closes whole ⊢
    obtain ⟨text, last, _ | after⟩ := read
    · obtain rfl : text = body := by simpa using whole
      rfl
    · exact absurd (closes rfl) (never _ after whole.symm)

end

-- ---------------------------------------------------------------------------
-- Whole texts
-- ---------------------------------------------------------------------------

theorem Piece.Munched.text_ne_nil {p : Piece} {after : List Char} (h : p.Munched after) :
    p.text ≠ [] := by
  cases p with
  | lexeme kind text =>
    cases h with
    | whole hd => exact hd.1
    | fraction => simp [Piece.text]
    | _ => exact List.cons_ne_nil _ _
  | _ => exact List.cons_ne_nil _ _

theorem cuts_piecesFrom (line : Nat) (text : List Char) : Cuts text (piecesFrom line text) := by
  fun_induction piecesFrom line text with
  | case1 => exact .nil
  | case2 line c rest piece last after h ih =>
    have whole := cut_append line c rest
    have munched := munched_cut line c rest
    rw [h] at whole munched
    exact whole ▸ .cons munched ih

theorem cuts_pieces (text : List Char) : Cuts text (pieces text) :=
  cuts_piecesFrom 1 text

theorem Cuts.eq_piecesFrom {text : List Char} {ps : List Piece} (h : Cuts text ps) (line : Nat) :
    ps = piecesFrom line text := by
  induction h generalizing line with
  | nil => rw [piecesFrom]
  | @cons p after ps hp _ ih =>
    obtain ⟨c, rest, ht⟩ := List.exists_cons_of_ne_nil
      (List.append_ne_nil_of_left_ne_nil hp.text_ne_nil after)
    have parts : (cut line c rest).parts = (p, after) := cut_of_munched hp ht
    obtain ⟨piece, behind⟩ := Prod.mk.inj parts
    rw [ht, piecesFrom_cons, piece, behind, ← ih]

theorem Cuts.eq_pieces {text : List Char} {ps : List Piece} (h : Cuts text ps) :
    ps = pieces text :=
  h.eq_piecesFrom 1

/-- A text is cut in one way that obeys the lexical grammar. -/
theorem cuts_iff {text : List Char} {ps : List Piece} : Cuts text ps ↔ ps = pieces text :=
  ⟨Cuts.eq_pieces, fun h => h ▸ cuts_pieces text⟩

theorem Cuts.munched {text : List Char} {ps : List Piece} (h : Cuts text ps) :
    ∀ p ∈ ps, ∃ after, p.Munched after := by
  induction h with
  | nil => simp
  | cons hp _ ih => exact List.forall_mem_cons.2 ⟨⟨_, hp⟩, ih⟩

def Piece.lexeme? : Piece → Option (Kind × List Char)
  | .lexeme kind text => some (kind, text)
  | _ => none

theorem bare_tokensFrom (line : Nat) (ps : List Piece) :
    (tokensFrom line ps).map Token.bare =
      (ps.filterMap Piece.lexeme?).map (fun l => (l.1, String.ofList l.2, literal? l.1 l.2)) ++
        [(.eof, "", none)] := by
  induction ps generalizing line with
  | nil => rfl
  | cons p rest ih =>
    rw [tokensFrom_cons]
    cases p with
    | lexeme kind text => exact congrArg (_ :: ·) (ih _)
    | _ => exact ih _

theorem map_tokensFrom (line : Nat) (ps : List Piece) :
    (tokensFrom line ps).map (fun t => (t.kind, t.lexeme.toList)) =
      ps.filterMap Piece.lexeme? ++ [(.eof, [])] := by
  have spelled := congrArg (List.map fun b => (b.1, b.2.1.toList)) (bare_tokensFrom line ps)
  simpa [Token.bare, Function.comp_def] using spelled

theorem map_errorsFrom (line : Nat) (ps : List Piece) :
    (errorsFrom line ps).map LexicalError.cause = ps.filterMap Piece.fault? := by
  induction ps generalizing line with
  | nil => rfl
  | cons p rest ih =>
    unfold errorsFrom
    cases hf : p.fault? with
    | none => simpa [hf] using ih _
    | some cause => simp [hf, ih]

theorem mem_tokensFrom {line : Nat} {ps : List Piece} {t : Token} (h : t ∈ tokensFrom line ps) :
    t.kind = .eof ∨ .lexeme t.kind t.lexeme.toList ∈ ps ∧
      t.literal = literal? t.kind t.lexeme.toList := by
  have bare : t.bare ∈ (tokensFrom line ps).map Token.bare := List.mem_map_of_mem h
  rw [bare_tokensFrom, List.mem_append, List.mem_singleton] at bare
  rcases bare with lexeme | last
  · obtain ⟨l, found, same⟩ := List.mem_map.1 lexeme
    obtain ⟨p, hp, whole⟩ := List.mem_filterMap.1 found
    obtain ⟨kind, spelling, value⟩ : l.1 = t.kind ∧ String.ofList l.2 = t.lexeme ∧
      literal? l.1 l.2 = t.literal := by simpa [Token.bare] using same
    rw [← kind, ← spelling, ← value, String.toList_ofList]
    cases p with
    | lexeme => exact .inr ⟨Option.some.inj whole ▸ hp, rfl⟩
    | _ => cases whole
  · exact .inl (congrArg Prod.fst last)

theorem Lexeme.spelling {after text : List Char} {kind : Kind} (h : Lexeme after kind text) :
    Spelling kind text := by
  cases h with
  | punctuation hp =>
    have listed := List.mem_map_of_mem (f := fun entry => (entry.2, [entry.1])) hp
    exact .fixed (List.mem_append_left _ (List.mem_append_left _ (List.mem_append_left _ listed)))
  | operator ho _ =>
    have listed := List.mem_map_of_mem (f := fun entry => (entry.2.1, [entry.1])) ho
    exact .fixed (List.mem_append_left _ (List.mem_append_left _ (List.mem_append_right _ listed)))
  | withEqual ho =>
    have listed := List.mem_map_of_mem (f := fun entry => (entry.2.2, [entry.1, '='])) ho
    exact .fixed (List.mem_append_left _ (List.mem_append_right _ listed))
  | slash => exact .fixed (by decide)
  | string hb => exact .string hb
  | whole hd => exact .number (.inl hd)
  | fraction hd hf => exact .number (.inr ⟨_, _, rfl, hd, hf⟩)
  | word hc hm _ hw =>
    rcases hw with hw | ⟨rfl, -⟩
    · have listed := List.mem_map_of_mem (f := fun entry => (entry.2, entry.1.toList)) hw
      rw [String.toList_ofList] at listed
      exact .fixed (List.mem_append_right _ (.tail _ listed))
    · exact .name hc hm

theorem Lexeme.string_text {after text : List Char} (h : Lexeme after .string text) :
    ∃ body, text = '"' :: body ++ ['"'] ∧ '"' ∉ body := by
  cases h.spelling with
  | fixed hf =>
    have table : ∀ entry ∈ fixedLexemes, entry.1 ≠ .string := by decide
    exact absurd rfl (table _ hf)
  | string hb => exact ⟨_, rfl, hb⟩

/-- A source is cut into pieces in exactly one way that obeys the lexical grammar. Its tokens are
the lexemes among them, each with the text of its piece, and an end token; its errors are the pieces
that are no part of a program. The value of a string is its text without the quotes. -/
theorem scan_munches_maximally (source : String) :
    ∃ ps : List Piece, Cuts source.toList ps ∧ (∀ qs, Cuts source.toList qs → qs = ps) ∧
      ps.flatMap Piece.text = source.toList ∧ (∀ p ∈ ps, p.text ≠ []) ∧
      (Scan.ofSource source).tokens.map (fun t => (t.kind, t.lexeme.toList)) =
        ps.filterMap Piece.lexeme? ++ [(.eof, [])] ∧
      (Scan.ofSource source).errors.map LexicalError.cause = ps.filterMap Piece.fault? ∧
      ∀ t ∈ (Scan.ofSource source).tokens, t.kind = .string → ∃ body,
        t.lexeme.toList = '"' :: body ++ ['"'] ∧ '"' ∉ body ∧
          t.literal = some (.string (String.ofList body)) := by
  have cuts : Cuts source.toList (pieces source.toList) := cuts_iff.2 rfl
  rw [Scan.ofSource_eq]
  refine ⟨pieces source.toList, cuts, fun qs => cuts_iff.1, flatMap_text_pieces _, ?_,
    map_tokensFrom .., map_errorsFrom .., ?_⟩
  · intro p hp
    obtain ⟨after, munched⟩ := cuts.munched p hp
    exact munched.text_ne_nil
  · intro t ht hs
    rcases mem_tokensFrom ht with he | ⟨hm, hl⟩
    · cases hs.symm.trans he
    · rw [hs] at hm hl
      obtain ⟨after, munched⟩ := cuts.munched _ hm
      obtain ⟨body, text, inside⟩ := Lexeme.string_text munched
      refine ⟨body, text, inside, ?_⟩
      rw [hl, text]
      simp [literal?]

end Source

end Lox
