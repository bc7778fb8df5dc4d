import Mathlib.Data.Nat.Find
import Lox.Frame.Access
import Lox.Proofs.Machine.Growth

/-!
# Walking outward

One frame lies inside many others and a name may be bound in several of them. Reading and writing by
a walk outward meet the same frame: the nearest one that binds the name, which is also the one that
its distance leads to. A write changes that one binding and nothing else (`walks_end_nearest`).
-/

namespace Lox.Heap

-- ---------------------------------------------------------------------------
-- Frames as programs build them
-- ---------------------------------------------------------------------------

/-- The global frame alone, and what any changes of frames that are there make of it. -/
inductive Built : Heap → Prop
  | global : Built initial
  | child {h : Heap} {frame : Nat} : Built h → frame < h.frames.size → Built (h.push frame []).2
  | define {h : Heap} {frame : Nat} (name : String) (value : Value) :
    Built h → frame < h.frames.size → Built (h.define frame name value)
  | assign {h : Heap} {frame : Nat} (name : Token) (value : Value) :
    Built h → frame < h.frames.size → Built (h.assign frame name value).2
  | assignAt {h : Heap} {frame : Nat} (distance : Nat) (name : String) (value : Value) :
    Built h → frame < h.frames.size → Built (h.assignAt frame distance name value)
  | take {h : Heap} {frame : Nat} : Built h → frame < h.frames.size → Built (h.take frame).2

/-- The frame that a frame was made in. -/
def link (h : Heap) (frame : Nat) : Option Nat :=
  h.frames[frame]?.bind Frame.enclosing

/-- Following so many links from the first frame leads to the second. -/
inductive LinksOut (h : Heap) : Nat → Nat → Nat → Prop
  | here {frame : Nat} : LinksOut h frame 0 frame
  | outward {frame outer distance holder : Nat} :
    h.link frame = some outer → LinksOut h outer distance holder →
    LinksOut h frame (distance + 1) holder

/-- The frame or one of those around it binds the name. -/
def BoundAround (h : Heap) (frame : Nat) (name : String) : Prop :=
  ∃ distance holder, h.LinksOut frame distance holder ∧ name ∈ h.names holder

/-- The first frame on the way outward that binds the name, and how far out it is. -/
structure Nearest (h : Heap) (frame : Nat) (name : String) (distance holder : Nat) : Prop where
  reached : h.LinksOut frame distance holder
  binds : name ∈ h.names holder
  first : ∀ {closer other : Nat}, closer < distance → h.LinksOut frame closer other →
    name ∉ h.names other

/-- The frames after a change of one name in one frame, at most. -/
structure ChangedOnlyAt (h : Heap) (holder : Nat) (name : String) (h' : Heap) : Prop where
  size : h'.frames.size = h.frames.size
  link : ∀ frame, h'.link frame = h.link frame
  own : ∀ frame key, ¬ (frame = holder ∧ key = name) → h'.own? frame key = h.own? frame key

def Ordered (h : Heap) : Prop :=
  ∀ frame outer : Nat, h.link frame = some outer → outer < frame

theorem link_define (h : Heap) (holder frame : Nat) (name : String) (value : Value) :
    (h.define holder name value).link frame = h.link frame := by
  simp only [link, define, Array.getElem?_modify]
  split
  · cases h.frames[frame]? <;> rfl
  · rfl

theorem link_take (h : Heap) (emptied frame : Nat) :
    (h.take emptied).2.link frame = h.link frame := by
  simp only [link, take, Array.getElem?_modify]
  split
  · cases h.frames[frame]? <;> rfl
  · rfl

theorem link_push (h : Heap) (outer frame : Nat) (own : Bindings) :
    (h.push outer own).2.link frame =
      if frame = h.frames.size then some outer else h.link frame := by
  simp only [link, push, Array.getElem?_push]
  split <;> rfl

theorem Ordered.of_links {h h' : Heap} (ordered : h.Ordered)
    (same : ∀ frame, h'.link frame = h.link frame) : h'.Ordered :=
  fun frame outer hl => ordered frame outer (same frame ▸ hl)

theorem Ordered.push {h : Heap} (ordered : h.Ordered) {outer : Nat} (there : outer < h.frames.size)
    (own : Bindings) : (h.push outer own).2.Ordered := by
  intro frame other hl
  rw [link_push] at hl
  split at hl
  · next new =>
    cases hl
    exact new ▸ there
  · exact ordered frame other hl

theorem Built.ordered {h : Heap} (built : h.Built) : h.Ordered := by
  induction built with
  | global =>
    intro frame outer hl
    cases frame <;> simp [link, initial] at hl
  | child _ there ih => exact ih.push there []
  | define name value _ _ ih => exact ih.of_links fun frame => link_define ..
  | assign name value _ _ ih =>
    rw [assign_eq]
    split
    · exact ih.of_links fun frame => link_define ..
    · exact ih
  | assignAt distance name value _ _ ih => exact ih.of_links fun frame => link_define ..
  | take _ _ ih => exact ih.of_links fun frame => link_take ..

-- ---------------------------------------------------------------------------
-- The walk
-- ---------------------------------------------------------------------------

theorem Ordered.enclosing?_eq {h : Heap} (ordered : h.Ordered) (frame : Nat) :
    h.enclosing? frame = h.link frame := by
  have older := ordered frame
  unfold link at *
  cases hf : h.frames[frame]? with
  | none => simp [enclosing?, hf]
  | some f =>
    rw [hf] at older
    exact enclosing?_of_older hf older

theorem holder?_eq (h : Heap) (frame : Nat) (name : String) :
    h.holder? frame name =
      if name ∈ h.names frame then some frame
      else (h.enclosing? frame).bind (h.holder? · name) := by
  simp only [← isSome_own?_iff]
  unfold holder?
  rw [chain.eq_def]
  split
  · next outer he =>
    rw [he, List.find?_cons]
    split
    · next bound => rw [if_pos bound]
    · next unbound => simp [unbound]
  · next he =>
    rw [he, List.find?_singleton]
    rfl

theorem get?_eq (h : Heap) (frame : Nat) (name : String) :
    h.get? frame name = (h.holder? frame name).bind (h.own? · name) := by
  unfold get? holder?
  induction h.chain frame with
  | nil => rfl
  | cons first rest ih =>
    rw [List.findSome?_cons, List.find?_cons, ih]
    cases own : h.own? first name <;> simp [own]

section
variable {h : Heap} {frame distance holder : Nat} {name : String}

theorem Nearest.holder?_eq_some (ordered : h.Ordered)
    (nearest : h.Nearest frame name distance holder) :
    h.holder? frame name = some holder := by
  obtain ⟨reached, binds, first⟩ := nearest
  induction reached with
  | here => rw [holder?_eq, if_pos binds]
  | outward hl _ ih =>
    rw [holder?_eq, if_neg (first (Nat.succ_pos _) .here), ordered.enclosing?_eq, hl]
    exact ih binds fun closer out => first (Nat.succ_lt_succ closer) (.outward hl out)

theorem holder?_eq_none (ordered : h.Ordered) (unbound : ¬ h.BoundAround frame name) :
    h.holder? frame name = none := by
  induction frame using Nat.strong_induction_on with
  | _ frame ih =>
    rw [holder?_eq, if_neg fun binds => unbound ⟨0, frame, .here, binds⟩, ordered.enclosing?_eq]
    cases hl : h.link frame with
    | none => rfl
    | some outer =>
      refine ih outer (ordered frame outer hl) ?_
      rintro ⟨distance, holder, out, binds⟩
      exact unbound ⟨distance + 1, holder, .outward hl out, binds⟩

theorem LinksOut.ancestor_eq (ordered : h.Ordered) (out : h.LinksOut frame distance holder) :
    h.ancestor frame distance = holder := by
  induction out with
  | here => rfl
  | outward hl _ ih =>
    rw [ancestor, ordered.enclosing?_eq, hl]
    exact ih

theorem BoundAround.exists_nearest (bound : h.BoundAround frame name) :
    ∃ distance holder, h.Nearest frame name distance holder := by
  classical
  obtain ⟨holder, reached, binds⟩ := Nat.find_spec bound
  exact ⟨Nat.find bound, holder, reached, binds, fun closer out binds =>
    Nat.find_min bound closer ⟨_, out, binds⟩⟩

end

-- ---------------------------------------------------------------------------
-- Writes
-- ---------------------------------------------------------------------------

theorem changedOnlyAt_define (h : Heap) (holder : Nat) (name : String) (value : Value) :
    h.ChangedOnlyAt holder name (h.define holder name value) where
  size := size_define ..
  link frame := link_define ..
  own frame key other := by
    rw [own?_define, if_neg]
    rintro ⟨rfl, -, rfl⟩
    exact other ⟨rfl, rfl⟩

theorem own?_define_self {h : Heap} {holder : Nat} {name : String} (binds : name ∈ h.names holder)
    (value : Value) : (h.define holder name value).own? holder name = some value := by
  have there : holder < h.frames.size := by
    refine Nat.lt_of_not_le fun hs => ?_
    rw [← isSome_own?_iff, own?_of_size_le hs] at binds
    cases binds
  rw [own?_define, if_pos ⟨rfl, there, rfl⟩]

theorem holder?_define {h : Heap} {holder : Nat} {name : String} (binds : name ∈ h.names holder)
    (value : Value) (frame : Nat) :
    (h.define holder name value).holder? frame name = h.holder? frame name := by
  induction frame using Nat.strong_induction_on with
  | _ frame ih =>
    have same : name ∈ (h.define holder name value).names frame ↔ name ∈ h.names frame := by
      rw [← isSome_own?_iff, ← isSome_own?_iff]
      by_cases hf : frame = holder
      · subst hf
        rw [own?_define_self binds, isSome_own?_iff]
        exact ⟨fun _ => binds, fun _ => rfl⟩
      · rw [(changedOnlyAt_define h holder name value).own frame name fun c => hf c.1]
    rw [holder?_eq, holder?_eq h, enclosing?_define]
    simp only [same]
    cases he : h.enclosing? frame with
    | none => rfl
    | some outer => rw [Option.bind_some, Option.bind_some, ih outer (enclosing?_lt he)]

-- ---------------------------------------------------------------------------
-- Names and distances
-- ---------------------------------------------------------------------------

/-- However frames came to be, reading a name and writing it succeed if and only if a frame around
binds it. Both meet the nearest such frame, as access at its distance does; a write is then read
back and changes this one binding. Otherwise both fail with the error of a name that is not defined,
and no frame changes. -/
theorem walks_end_nearest {h : Heap} (built : h.Built) (frame : Nat) (name : Token)
    (value : Value) :
    ((∃ v, h.get frame name = .ok v) ↔ h.BoundAround frame name.lexeme) ∧
    ((h.assign frame name value).1 = .ok () ↔ h.BoundAround frame name.lexeme) ∧
    (h.BoundAround frame name.lexeme →
      ∃ distance holder, h.Nearest frame name.lexeme distance holder) ∧
    (∀ distance holder, h.Nearest frame name.lexeme distance holder →
      h.get frame name = h.getAt frame distance name ∧
      (h.assign frame name value).2 = h.assignAt frame distance name.lexeme value ∧
      (h.assign frame name value).2.get frame name = .ok value ∧
      h.ChangedOnlyAt holder name.lexeme (h.assign frame name value).2) ∧
    (¬ h.BoundAround frame name.lexeme →
      h.get frame name = .error ⟨name.line, .undefinedVariable name.lexeme⟩ ∧
      h.assign frame name value = (.error ⟨name.line, .undefinedVariable name.lexeme⟩, h)) := by
  have ordered := built.ordered
  have missed (unbound : ¬ h.BoundAround frame name.lexeme) :
      h.get frame name = .error (.undefined name) ∧
        h.assign frame name value = (.error (.undefined name), h) := by
    have none := holder?_eq_none ordered unbound
    exact ⟨by rw [get, get?_eq, none]; rfl, by rw [assign_eq, none]⟩
  have met {distance holder : Nat} (nearest : h.Nearest frame name.lexeme distance holder) :
      h.get frame name = found name (h.own? holder name.lexeme) ∧
        h.assign frame name value = (.ok (), h.define holder name.lexeme value) := by
    have some := nearest.holder?_eq_some ordered
    exact ⟨by rw [get, get?_eq, some]; rfl, by rw [assign_eq, some]⟩
  refine ⟨⟨?_, ?_⟩, ⟨?_, ?_⟩, BoundAround.exists_nearest, fun distance holder nearest => ?_, missed⟩
  · rintro ⟨v, read⟩
    by_contra unbound
    rw [(missed unbound).1] at read
    cases read
  · intro bound
    obtain ⟨distance, holder, nearest⟩ := bound.exists_nearest
    obtain ⟨v, own⟩ := Option.isSome_iff_exists.1 (isSome_own?_iff.2 nearest.binds)
    exact ⟨v, by rw [(met nearest).1, own]; rfl⟩
  · intro written
    by_contra unbound
    rw [(missed unbound).2] at written
    cases written
  · intro bound
    obtain ⟨distance, holder, nearest⟩ := bound.exists_nearest
    rw [(met nearest).2]
  · obtain ⟨read, written⟩ := met nearest
    have counted := nearest.reached.ancestor_eq ordered
    rw [read, written]
    refine ⟨?_, ?_, ?_, changedOnlyAt_define ..⟩
    · rw [getAt, getAt?, counted]
    · rw [assignAt, counted]
    · rw [get, get?_eq, holder?_define nearest.binds, nearest.holder?_eq_some ordered,
        Option.bind_some, own?_define_self nearest.binds]
      rfl

def shadowing : Heap :=
  let outer := initial.define globalFrame "a" (.boolean true)
  (((outer.push globalFrame []).2.define 1 "a" (.boolean false)).push 1 []).2

theorem walks_end_nearest_shadowing :
    let a : Token := ⟨.identifier, "a", none, 1⟩
    shadowing.Built ∧ shadowing.Nearest 2 a.lexeme 1 1 ∧
      shadowing.get 2 a = .ok (.boolean false) ∧
      (shadowing.assign 2 a .nil).2.get 2 a = .ok .nil ∧
      shadowing.ChangedOnlyAt 1 a.lexeme (shadowing.assign 2 a .nil).2 := by
  intro a
  have built : shadowing.Built :=
    .child (.define _ _ (.child (.define _ _ .global Nat.one_pos) Nat.one_pos) (by decide))
    (by decide)
  have nearest : shadowing.Nearest 2 a.lexeme 1 1 := by
    refine ⟨.outward rfl .here, by decide, fun closer out => ?_⟩
    obtain rfl := Nat.lt_one_iff.1 closer
    cases out
    decide
  obtain ⟨same, -, back, only⟩ := (walks_end_nearest built 2 a .nil).2.2.2.1 1 1 nearest
  exact ⟨built, nearest, same.trans rfl, back, only⟩

end Lox.Heap
