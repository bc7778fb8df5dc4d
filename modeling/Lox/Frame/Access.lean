import Lox.Diagnostic.Runtime
import Lox.Frame.Basic

/-!
# Names in frames

How a name is read and written from a frame: by walking outward, or at a distance. A name that is
not found is an error at the token that stands for it, and leaves all frames as they are.
-/

namespace Lox.Heap

def found (name : Token) : Option Value → Except RuntimeError Value
  | some value => .ok value
  | none => .error (.undefined name)

def get (h : Heap) (frame : Nat) (name : Token) : Except RuntimeError Value :=
  found name (h.get? frame name.lexeme)

def getAt (h : Heap) (frame distance : Nat) (name : Token) : Except RuntimeError Value :=
  found name (h.getAt? frame distance name.lexeme)

-- Inlined, since a heap that a machine still holds would be copied when it is written.
/-- Writes a name in the nearest frame that binds it, if one does. -/
@[inline]
def assign (h : Heap) (frame : Nat) (name : Token) (value : Value) :
    Except RuntimeError Unit × Heap :=
  match h.assign? frame name.lexeme value with
  | some changed => (.ok (), changed)
  | none => (.error (.undefined name), h)

theorem assign_eq (h : Heap) (frame : Nat) (name : Token) (value : Value) :
    h.assign frame name value = match h.holder? frame name.lexeme with
      | some holder => (.ok (), h.define holder name.lexeme value)
      | none => (.error (.undefined name), h) := by
  unfold assign assign?
  cases h.holder? frame name.lexeme <;> rfl

end Lox.Heap
