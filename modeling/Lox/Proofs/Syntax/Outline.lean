import Lox.Proofs.Source.Munch
import Lox.Syntax.Printer

/-!
# Outlines

The text of an expression is made of words, of text in quotes and of forms in parentheses, each with
a word as its head and a space before each of its parts. Of clear outlines, where nothing ends a
word or a quoted text before its end, a text has one only, and where it ends does not depend on what
follows (`text_append_inj`).
-/

namespace Lox

/-- What a text in prefix notation is made of. -/
inductive Outline where
  | word (text : String)
  | quoted (text : String)
  | form (head : String) (parts : List Outline)

namespace Outline

open Source (Stops takeWhile_of_stops stops_nil)

mutual

def text : Outline → List Char
  | .word text => text.toList
  | .quoted text => '"' :: text.toList ++ ['"']
  | .form head parts => '(' :: head.toList ++ listText parts ++ [')']

def listText : List Outline → List Char
  | [] => []
  | first :: rest => ' ' :: first.text ++ listText rest

end

-- ---------------------------------------------------------------------------
-- Words
-- ---------------------------------------------------------------------------

def delimiters : List Char :=
  [' ', '(', ')', '"']

def inWord (c : Char) : Bool :=
  !delimiters.contains c

theorem inWord_of {p : Char → Bool} (hp : delimiters.all (!p ·)) {c : Char} (hc : p c) :
    inWord c := by
  simp only [inWord, Bool.not_eq_true', List.contains_eq_mem, decide_eq_false_iff_not]
  intro delimiter
  have outside := List.all_eq_true.1 hp c delimiter
  simp [hc] at outside

structure Word (text : String) : Prop where
  nonempty : text.toList ≠ []
  inside : text.toList.all inWord

/-- The notation can tell where the words and the quoted texts end. -/
inductive Clear : Outline → Prop
  | word {text : String} : Word text → Clear (.word text)
  | quoted {text : String} : '"' ∉ text.toList → Clear (.quoted text)
  | form {head : String} {parts : List Outline} :
    Word head → (∀ part ∈ parts, part.Clear) → Clear (.form head parts)

section
variable {w w' : String} {rest rest' : List Char}

theorem stops_cons {c : Char} (hc : inWord c = false) (rest : List Char) :
    Stops inWord (c :: rest) := by
  rintro d ⟨⟩
  exact hc

theorem Word.append_inj (hw : Word w) (hw' : Word w') (hr : Stops inWord rest)
    (hr' : Stops inWord rest') (h : w.toList ++ rest = w'.toList ++ rest') :
    w = w' ∧ rest = rest' := by
  obtain ⟨taken, left⟩ := takeWhile_of_stops (List.all_eq_true.1 hw.inside) hr
  obtain ⟨taken', left'⟩ := takeWhile_of_stops (List.all_eq_true.1 hw'.inside) hr'
  rw [h] at taken left
  exact ⟨String.toList_inj.1 (taken.symm.trans taken'), left.symm.trans left'⟩

theorem Word.append_ne_cons (hw : Word w) {c : Char} (hc : inWord c = false) :
    w.toList ++ rest ≠ c :: rest' := by
  intro h
  obtain ⟨d, more, hd⟩ := List.exists_cons_of_ne_nil hw.nonempty
  have first := List.all_eq_true.1 hw.inside d (hd ▸ List.mem_cons_self)
  rw [hd] at h
  cases h
  rw [hc] at first
  cases first

theorem quoted_append_inj (hw : '"' ∉ w.toList) (hw' : '"' ∉ w'.toList)
    (h : w.toList ++ '"' :: rest = w'.toList ++ '"' :: rest') : w = w' ∧ rest = rest' := by
  have quote (rest : List Char) : Stops (· ≠ '"') ('"' :: rest) := by
    rintro c ⟨⟩
    decide
  have inside {w : String} (hw : '"' ∉ w.toList) : ∀ c ∈ w.toList, decide (c ≠ '"') = true :=
    fun c hc => decide_eq_true fun same => hw (same ▸ hc)
  obtain ⟨taken, left⟩ := takeWhile_of_stops (inside hw) (quote rest)
  obtain ⟨taken', left'⟩ := takeWhile_of_stops (inside hw') (quote rest')
  rw [h] at taken left
  exact ⟨String.toList_inj.1 (taken.symm.trans taken'),
    List.tail_eq_of_cons_eq (left.symm.trans left')⟩

end

-- ---------------------------------------------------------------------------
-- Whole outlines
-- ---------------------------------------------------------------------------

theorem stops_listText (parts : List Outline) (rest : List Char) :
    Stops inWord (listText parts ++ ')' :: rest) := by
  cases parts with
  | nil => exact stops_cons rfl _
  | cons => exact stops_cons rfl _

-- The first character tells words, quoted texts and forms apart; the induction is on the first
-- outline.
mutual

/-- A text starts with the text of one clear outline only. -/
theorem text_append_inj : ∀ {o o' : Outline}, o.Clear → o'.Clear → ∀ {rest rest' : List Char},
    Stops inWord rest → Stops inWord rest' → o.text ++ rest = o'.text ++ rest' →
    o = o' ∧ rest = rest'
  | .word w, _, .word hw, ho', rest, rest', hr, hr', h => by
    cases ho' with
    | word hw' =>
      obtain ⟨rfl, rfl⟩ := hw.append_inj hw' hr hr' h
      exact ⟨rfl, rfl⟩
    | quoted => exact absurd h (hw.append_ne_cons rfl)
    | form => exact absurd h (hw.append_ne_cons rfl)
  | .quoted w, _, .quoted hw, ho', rest, rest', _, _, h => by
    cases ho' with
    | word hw' => exact absurd h.symm (hw'.append_ne_cons rfl)
    | quoted hw' =>
      simp only [text, List.cons_append, List.append_assoc, List.nil_append] at h
      obtain ⟨rfl, rfl⟩ := quoted_append_inj hw hw' (List.tail_eq_of_cons_eq h)
      exact ⟨rfl, rfl⟩
    | form => cases h
  | .form head parts, _, .form hh hp, ho', rest, rest', _, _, h => by
    cases ho' with
    | word hw' => exact absurd h.symm (hw'.append_ne_cons rfl)
    | quoted => cases h
    | form hh' hp' =>
      simp only [text, List.cons_append, List.append_assoc, List.nil_append] at h
      obtain ⟨rfl, behind⟩ := hh.append_inj hh' (stops_listText _ _) (stops_listText _ _)
        (List.tail_eq_of_cons_eq h)
      obtain ⟨rfl, rfl⟩ := listText_append_inj hp hp' behind
      exact ⟨rfl, rfl⟩

theorem listText_append_inj : ∀ {ps ps' : List Outline}, (∀ p ∈ ps, p.Clear) →
    (∀ p ∈ ps', p.Clear) → ∀ {rest rest' : List Char},
    listText ps ++ ')' :: rest = listText ps' ++ ')' :: rest' → ps = ps' ∧ rest = rest'
  | [], ps', _, _, rest, rest', h => by
    cases ps' with
    | nil => exact ⟨rfl, List.tail_eq_of_cons_eq h⟩
    | cons => cases h
  | p :: ps, ps', hp, hp', rest, rest', h => by
    cases ps' with
    | nil => cases h
    | cons p' ps' =>
      simp only [listText, List.cons_append, List.append_assoc] at h
      obtain ⟨rfl, behind⟩ := text_append_inj (hp p List.mem_cons_self) (hp' p' List.mem_cons_self)
        (stops_listText _ _) (stops_listText _ _) (List.tail_eq_of_cons_eq h)
      obtain ⟨rfl, rfl⟩ := listText_append_inj (fun q hq => hp q (List.mem_cons_of_mem _ hq))
        (fun q hq => hp' q (List.mem_cons_of_mem _ hq)) behind
      exact ⟨rfl, rfl⟩

end

theorem text_inj {o o' : Outline} (ho : o.Clear) (ho' : o'.Clear) (h : o.text = o'.text) : o = o' :=
  (text_append_inj ho ho' stops_nil stops_nil (by simpa using h)).1

end Outline

end Lox
