import Lox.Proofs.Machine.Growth
import Lox.Proofs.Scope.Accepted

/-!
# Frames fit scopes

The scopes that an accepted tree was bound in and the frames that it runs in go together: one frame
a scope, the global frame around them, and in each frame a value for every name that its scope has
ready. `Fits.found`: so a distance that was counted in scopes leads to a frame that binds the name.
-/

namespace Lox

-- ---------------------------------------------------------------------------
-- Local scopes
-- ---------------------------------------------------------------------------

/-- No name of the scopes is still on the way to its definition. -/
def Settled (scopes : List Scope) : Prop :=
  ∀ scope ∈ scopes, ∀ name, scope.awaits name = false

def Scope.introduce (scope : Scope) (name : String) : Scope :=
  (scope.mark name false).mark name true

theorem Scope.lookup_introduce (scope : Scope) (name key : String) :
    (scope.introduce name).lookup key = if key = name then some true else scope.lookup key := by
  unfold introduce
  rw [lookup_mark, lookup_mark]
  split <;> rfl

def Scope.introduceAll (scope : Scope) (parameters : List Token) : Scope :=
  parameters.foldl (fun scope p => Scope.introduce scope p.lexeme) scope

theorem Scope.lookup_introduceAll (scope : Scope) (parameters : List Token) (key : String) :
    (scope.introduceAll parameters).lookup key =
      if key ∈ parameters.map Token.lexeme then some true else scope.lookup key := by
  induction parameters generalizing scope with
  | nil => simp [introduceAll]
  | cons p rest ih =>
    refine (ih (scope.introduce p.lexeme)).trans ?_
    rw [lookup_introduce]
    by_cases h : key = p.lexeme <;> simp [h]

namespace Scopes

theorem locals_mark (s : Scopes) (name : String) (ready : Bool) :
    (s.mark name ready).locals = s.locals.modifyHead (·.mark name ready) := by
  unfold mark
  cases h : s.locals with
  | nil => simp
  | cons scope outer => rfl

theorem locals_declare (s : Scopes) (name : String) :
    (s.declare name).locals = s.locals.modifyHead (·.mark name false) := by
  unfold declare
  split
  · next h =>
    cases hl : s.locals with
    | nil => rfl
    | cons scope outer => simp [hl] at h
  · exact locals_mark ..

theorem locals_introduce (s : Scopes) (name : String) :
    (s.introduce name).locals = s.locals.modifyHead (·.introduce name) := by
  unfold introduce define
  rw [locals_mark, locals_declare]
  cases s.locals <;> rfl

theorem locals_foldl_introduce (s : Scopes) (parameters : List Token) {scope : Scope}
    {outer : List Scope} (h : s.locals = scope :: outer) :
    (parameters.foldl (fun s p => s.introduce p.lexeme) s).locals =
      scope.introduceAll parameters :: outer := by
  induction parameters generalizing s scope with
  | nil => exact h
  | cons p rest ih => exact ih _ (by rw [locals_introduce, h]; rfl)

theorem locals_inside (s : Scopes) (parameters : List Token) :
    (s.inside parameters).locals = Scope.introduceAll [] parameters :: s.locals :=
  locals_foldl_introduce s.enter parameters rfl

theorem innermost_of_locals {s : Scopes} {scope : Scope} {outer : List Scope}
    (h : s.locals = scope :: outer) : s.innermost = scope := by
  simp [innermost, h]

theorem after_of_undeclared {s : Scopes} {t : Stmt} (h : t.declared? = none) : s.after t = s := by
  simp [after, h]

theorem locals_after_eq_nil {s : Scopes} (hl : s.locals = []) (t : Stmt) :
    (s.after t).locals = [] := by
  unfold after
  split
  · rw [locals_introduce, hl]
    rfl
  · exact hl

theorem during_of_undeclared {s : Scopes} {t : Stmt} (h : t.declared? = none) : s.during t = s := by
  simp [during, h]

end Scopes

theorem Settled.modifyHead {scopes : List Scope} (h : Settled scopes) (name : String) :
    Settled (scopes.modifyHead (·.introduce name)) := by
  cases scopes with
  | nil => exact h
  | cons scope outer =>
    intro inner hi key
    rcases List.mem_cons.1 hi with rfl | hi
    · unfold Scope.awaits
      rw [Scope.lookup_introduce]
      split
      · rfl
      · exact h scope (by simp) key
    · exact h inner (by simp [hi]) key

theorem Settled.after {s : Scopes} (h : Settled s.locals) (t : Stmt) :
    Settled (s.after t).locals := by
  unfold Scopes.after
  split
  · rw [Scopes.locals_introduce]
    exact h.modifyHead _
  · exact h

theorem Settled.inside {s : Scopes} (h : Settled s.locals) (parameters : List Token) :
    Settled (s.inside parameters).locals := by
  rw [Scopes.locals_inside]
  intro scope hs key
  rcases List.mem_cons.1 hs with rfl | hs
  · unfold Scope.awaits
    rw [Scope.lookup_introduceAll]
    split <;> rfl
  · exact h scope hs key

theorem Settled.enter {s : Scopes} (h : Settled s.locals) : Settled s.enter.locals :=
  Settled.inside h []

-- ---------------------------------------------------------------------------
-- Chains of frames
-- ---------------------------------------------------------------------------

/-- The frames from one outward are those of the local scopes, the innermost first, in the global
one. A frame binds what its scope has ready, and only the innermost scope may await a name. -/
inductive Heap.Fits (h : Heap) : List Scope → Nat → Prop
  | globals : Fits h [] globalFrame
  | frame {scope outer frame enclosing} :
    h.enclosing? frame = some enclosing → Fits h outer enclosing → Settled outer →
    (∀ name, scope.lookup name = some true → (h.own? frame name).isSome) →
    Fits h (scope :: outer) frame

namespace Heap

theorem lt_size_of_enclosing? {h : Heap} {frame outer : Nat} (e : h.enclosing? frame = some outer) :
    frame < h.frames.size := by
  refine Nat.lt_of_not_le fun hf => ?_
  simp [enclosing?, Array.getElem?_eq_none hf] at e

theorem Fits.mono {h h' : Heap} (hg : h.Grows h') {scopes : List Scope} {frame : Nat}
    (hf : h.Fits scopes frame) : h'.Fits scopes frame := by
  induction hf with
  | globals => exact .globals
  | frame he _ hs hb ih =>
    refine .frame ?_ ih hs fun name hn => hg.bound _ _ (hb name hn)
    rw [hg.enclosing _ (lt_size_of_enclosing? he)]
    exact he

theorem Fits.lt_size {h : Heap} {scopes : List Scope} {frame : Nat} (hf : h.Fits scopes frame)
    (hz : 0 < h.frames.size) : frame < h.frames.size := by
  cases hf with
  | globals => exact hz
  | frame he => exact lt_size_of_enclosing? he

theorem Fits.found {h : Heap} {scopes : List Scope} {frame : Nat} (hf : h.Fits scopes frame)
    {name : String} {distance : Nat}
    (hd : scopes.findIdx? (·.declares name) = some distance)
    (ha : ∀ scope ∈ scopes.head?, scope.awaits name = false) :
    ∃ holder, (h.chain frame)[distance]? = some holder ∧ h.ancestor frame distance = holder ∧
      holder ≠ globalFrame ∧ (h.own? holder name).isSome := by
  induction hf generalizing distance with
  | globals => cases hd
  | @frame scope outer frame enclosing he _ hs hb ih =>
    rw [List.findIdx?_cons] at hd
    split at hd
    · next declared =>
      cases hd
      have ready : scope.lookup name = some true := by
        have quiet := ha scope rfl
        unfold Scope.awaits at quiet
        unfold Scope.declares at declared
        revert quiet declared
        cases scope.lookup name with
        | none => simp
        | some ready => cases ready <;> simp
      refine ⟨frame, ?_, rfl, Nat.ne_of_gt (Nat.zero_lt_of_lt (enclosing?_lt he)), hb name ready⟩
      rw [chain.eq_def, he]
      rfl
    · obtain ⟨d, outward, rfl⟩ := Option.map_eq_some_iff.1 hd
      obtain ⟨holder, hc, hh, hn, ho⟩ := ih outward fun s hm => hs s (List.mem_of_mem_head? hm) name
      refine ⟨holder, ?_, ?_, hn, ho⟩
      · rw [chain.eq_def, he]
        exact hc
      · rw [ancestor, he]
        exact hh

theorem Fits.enter {h : Heap} {scopes : List Scope} {frame : Nat} (hf : h.Fits scopes frame)
    (hs : Settled scopes) (hz : 0 < h.frames.size) {scope : Scope} {own : Bindings}
    (hb : ∀ name, scope.lookup name = some true → (own.lookup name).isSome) :
    (h.push frame own).2.Fits (scope :: scopes) h.frames.size := by
  refine .frame ?_ (hf.mono (.push ..)) hs ?_
  · rw [enclosing?_push, if_pos rfl]
    exact Option.filter_eq_some_iff.2 ⟨rfl, by simpa using hf.lt_size hz⟩
  · intro name hn
    rw [own?_push, if_pos rfl]
    exact hb name hn

theorem Fits.declare {h : Heap} {scopes : List Scope} {frame : Nat} (hf : h.Fits scopes frame)
    (name : String) : h.Fits (scopes.modifyHead (·.mark name false)) frame := by
  cases hf with
  | globals => exact .globals
  | frame he ho hs hb =>
    refine .frame he ho hs fun key hk => hb key ?_
    rw [Scope.lookup_mark] at hk
    split at hk
    · cases hk
    · exact hk

theorem Fits.introduce {h : Heap} {scopes : List Scope} {frame : Nat} (hf : h.Fits scopes frame)
    {name : String} (hn : (h.own? frame name).isSome) :
    h.Fits (scopes.modifyHead (·.introduce name)) frame := by
  cases hf with
  | globals => exact .globals
  | frame he ho hs hb =>
    refine .frame he ho hs fun key hk => ?_
    rw [Scope.lookup_introduce] at hk
    split at hk
    · next same => exact same ▸ hn
    · exact hb key hk

end Heap

end Lox
