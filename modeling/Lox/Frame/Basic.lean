import Lox.Value.Basic

/-!
# Frames

A frame binds names to values and may lie in an enclosing frame. Frames have numbers; a new frame
gets the next one, so an enclosing frame has a smaller number than the frames in it. Frame zero is
the global one. Names are read and written either by walking outward to the nearest frame that
binds them, or in the frame a given distance out.
-/

namespace Lox

/-- Names with their values; no name stands twice. -/
abbrev Bindings (κ : Type := Nat) := List (String × Value κ)

def Bindings.insert {κ : Type} (name : String) (value : Value κ) : Bindings κ → Bindings κ
  | [] => [(name, value)]
  | (key, old) :: rest =>
    if key = name then (key, value) :: rest else (key, old) :: Bindings.insert name value rest

@[simp]
theorem Bindings.lookup_insert {κ : Type} (name key : String) (value : Value κ) (b : Bindings κ) :
    (b.insert name value).lookup key = if key = name then some value else b.lookup key := by
  induction b with
  | nil =>
    by_cases h : key = name
    · simp [Bindings.insert, h]
    · simp [Bindings.insert, List.lookup_cons, h, beq_eq_false_iff_ne.2 h]
  | cons entry rest ih =>
    obtain ⟨first, old⟩ := entry
    unfold Bindings.insert
    by_cases same : first = name
    · subst same
      by_cases h : key = first
      · simp [h]
      · simp [List.lookup_cons, h, beq_eq_false_iff_ne.2 h]
    · by_cases h : key = first
      · subst h
        simp [same]
      · simp [List.lookup_cons, same, ih, beq_eq_false_iff_ne.2 h]

structure Frame where
  enclosing : Option Nat
  bindings : Bindings
  deriving Repr

structure Heap where
  frames : Array Frame
  deriving Repr

namespace Heap

def globalFrame : Nat := 0

def initial : Heap :=
  { frames := #[{ enclosing := none, bindings := [] }] }

def bindings (h : Heap) (frame : Nat) : Bindings :=
  match h.frames[frame]? with
  | some f => f.bindings
  | none => []

def own? (h : Heap) (frame : Nat) (name : String) : Option Value :=
  (h.bindings frame).lookup name

/-- The enclosing frame; only an older frame encloses another. -/
def enclosing? (h : Heap) (frame : Nat) : Option Nat :=
  match h.frames[frame]? with
  | some f => f.enclosing.filter (· < frame)
  | none => none

theorem enclosing?_lt {h : Heap} {frame outer : Nat} (e : h.enclosing? frame = some outer) :
    outer < frame := by
  unfold enclosing? at e
  split at e
  · simpa using (Option.filter_eq_some_iff.1 e).2
  · cases e

theorem enclosing?_of_older {h : Heap} {frame : Nat} {f : Frame} (hf : h.frames[frame]? = some f)
    (older : ∀ outer, f.enclosing = some outer → outer < frame) :
    h.enclosing? frame = f.enclosing := by
  unfold enclosing?
  rw [hf]
  cases he : f.enclosing with
  | none => simp [he]
  | some outer => simp [he, older outer he]

def push (h : Heap) (enclosing : Nat) (bindings : Bindings) : Nat × Heap :=
  (h.frames.size, { frames := h.frames.push { enclosing := some enclosing, bindings := bindings } })

def define (h : Heap) (frame : Nat) (name : String) (value : Value) : Heap :=
  { frames := h.frames.modify frame fun f => { f with bindings := f.bindings.insert name value } }

/-! What a frame binds and where it lies, after each change. -/

theorem bindings_define (h : Heap) (frame other : Nat) (name : String) (value : Value) :
    (h.define frame name value).bindings other =
      if frame = other ∧ other < h.frames.size then (h.bindings other).insert name value
      else h.bindings other := by
  simp only [bindings, define, Array.getElem?_modify]
  by_cases same : frame = other
  · subst same
    by_cases small : frame < h.frames.size
    · simp [small]
    · simp [small]
  · simp [same]

theorem enclosing?_define (h : Heap) (frame other : Nat) (name : String) (value : Value) :
    (h.define frame name value).enclosing? other = h.enclosing? other := by
  simp only [enclosing?, define, Array.getElem?_modify]
  by_cases same : frame = other
  · subst same
    cases h.frames[frame]? <;> simp
  · simp [same]

@[simp]
theorem size_define (h : Heap) (frame : Nat) (name : String) (value : Value) :
    (h.define frame name value).frames.size = h.frames.size := by
  simp [define]

theorem bindings_push (h : Heap) (outer : Nat) (own : Bindings) (frame : Nat) :
    (h.push outer own).2.bindings frame =
      if frame = h.frames.size then own else h.bindings frame := by
  simp only [bindings, push, Array.getElem?_push]
  by_cases new : frame = h.frames.size <;> simp [new]

theorem enclosing?_push (h : Heap) (outer : Nat) (own : Bindings) (frame : Nat) :
    (h.push outer own).2.enclosing? frame =
      if frame = h.frames.size then (some outer).filter (· < frame) else h.enclosing? frame := by
  simp only [enclosing?, push, Array.getElem?_push]
  by_cases new : frame = h.frames.size <;> simp [new]

@[simp]
theorem size_push (h : Heap) (outer : Nat) (own : Bindings) :
    (h.push outer own).2.frames.size = h.frames.size + 1 := by
  simp [push]

/-- A frame and the frames around it, from the inside out. -/
def chain (h : Heap) (frame : Nat) : List Nat :=
  match _e : h.enclosing? frame with
  | some outer => frame :: h.chain outer
  | none => [frame]
termination_by frame
decreasing_by exact enclosing?_lt _e

def get? (h : Heap) (frame : Nat) (name : String) : Option Value :=
  (h.chain frame).findSome? (h.own? · name)

def holder? (h : Heap) (frame : Nat) (name : String) : Option Nat :=
  (h.chain frame).find? fun f => (h.own? f name).isSome

@[inline]
def assign? (h : Heap) (frame : Nat) (name : String) (value : Value) : Option Heap :=
  match h.holder? frame name with
  | some holder => some (h.define holder name value)
  | none => none

/-! No frame lies around the global one. -/

theorem chain_globalFrame (h : Heap) : h.chain globalFrame = [globalFrame] := by
  rw [chain.eq_def]
  split
  · next e => exact absurd (enclosing?_lt e) (Nat.not_lt_zero _)
  · rfl

theorem get?_globalFrame (h : Heap) (name : String) :
    h.get? globalFrame name = h.own? globalFrame name := by
  simp [get?, chain_globalFrame]

theorem holder?_globalFrame (h : Heap) (name : String) :
    h.holder? globalFrame name =
      if (h.own? globalFrame name).isSome then some globalFrame else none := by
  rw [holder?, chain_globalFrame, List.find?_singleton]

/-- The frame a distance out, or the outermost one if the distance goes beyond it. -/
def ancestor (h : Heap) (frame : Nat) : Nat → Nat
  | 0 => frame
  | distance + 1 =>
    match h.enclosing? frame with
    | some outer => h.ancestor outer distance
    | none => frame

def getAt? (h : Heap) (frame distance : Nat) (name : String) : Option Value :=
  h.own? (h.ancestor frame distance) name

/-- Writes a name in the frame a distance out, whether it is bound there or not. -/
def assignAt (h : Heap) (frame distance : Nat) (name : String) (value : Value) : Heap :=
  h.define (h.ancestor frame distance) name value

/-- Removes all bindings of a frame, and gives them. -/
def take (h : Heap) (frame : Nat) : Bindings × Heap :=
  (h.bindings frame, { frames := h.frames.modify frame fun f => { f with bindings := [] } })

def names (h : Heap) (frame : Nat) : List String :=
  (h.bindings frame).map Prod.fst

end Heap

end Lox
