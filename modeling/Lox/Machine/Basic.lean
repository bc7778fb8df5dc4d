import Lox.Frame.Access

/-!
# Machines

The state of a running program: frames, the current one among them, what was printed, and the
supplies of identities for functions and of readings for the clock. `Run` is a step of a program: it
takes a machine to a value, to a runtime error, or nowhere within the steps it was given.
-/

namespace Lox

/-- Where printed lines go: to the console, or to a buffer that can be emptied. -/
inductive Output where
  | console (written : String)
  | buffer (pending : String)
  deriving Repr, DecidableEq

namespace Output

def text : Output → String
  | console written => written
  | buffer pending => pending

def write (o : Output) (text : String) : Output :=
  match o with
  | console written => console (written ++ text)
  | buffer pending => buffer (pending ++ text)

def printLine (o : Output) (line : String) : Output :=
  (o.write line).write "\n"

@[simp]
theorem text_write (o : Output) (text : String) : (o.write text).text = o.text ++ text := by
  cases o <;> rfl

/-- Empties a buffer. What went to the console is gone. -/
def take : Output → String × Output
  | console written => ("", console written)
  | buffer pending => (pending, buffer "")

end Output

/-- The readings of a clock, one a call, and how many were taken. -/
structure Clock where
  reading : Nat → Float
  taken : Nat

structure Machine where
  heap : Heap
  /-- The frame in which names are bound and from which distances count. -/
  current : Nat
  output : Output
  /-- No function has this identity or a larger one. -/
  nextIdentity : Nat
  clock : Clock

namespace Machine

def initial (output : Output) (reading : Nat → Float) : Machine :=
  { heap := Heap.initial.define Heap.globalFrame "clock"
      (.callable { identity := 0, callee := .clock })
    current := Heap.globalFrame
    output := output
    nextIdentity := 1
    clock := { reading := reading, taken := 0 } }

def globalNames (m : Machine) : List String :=
  m.heap.names Heap.globalFrame

end Machine

inductive Completion (κ : Type := Nat) where
  | normal
  /-- A `return` is on its way to the call it belongs to. -/
  | returned (value : Value κ)
  deriving Repr

/-- The value of a call whose body ends so. -/
def Completion.value {κ : Type} : Completion κ → Value κ
  | normal => .nil
  | returned value => value

inductive Outcome (α : Type) (σ : Type := Machine) where
  | done (value : α) (state : σ)
  | failed (error : RuntimeError) (state : σ)
  /-- The steps were used up. -/
  | unfinished

@[inline]
def Outcome.onMachine {α : Type} (change : Machine → Machine) : Outcome α → Outcome α
  | done value m => done value (change m)
  | failed error m => failed error (change m)
  | unfinished => unfinished

def Run (α : Type) : Type :=
  Machine → Outcome α

namespace Run

@[inline]
def pure {α : Type} (value : α) : Run α :=
  fun m => .done value m

@[inline]
def bind {α β : Type} (first : Run α) (next : α → Run β) : Run β :=
  fun m => match first m with
    | .done value m => next value m
    | .failed error m => .failed error m
    | .unfinished => .unfinished

@[always_inline]
instance : Monad Run where
  pure := Run.pure
  bind := Run.bind

theorem bind_apply {α β : Type} (first : Run α) (next : α → Run β) (m : Machine) :
    (first >>= next) m = match first m with
      | .done value m => next value m
      | .failed error m => .failed error m
      | .unfinished => .unfinished :=
  rfl

def unfinished {α : Type} : Run α :=
  fun _ => .unfinished

def fail {α : Type} (line : Nat) (cause : RuntimeCause) : Run α :=
  fun m => .failed { line := line, cause := cause } m

def check (line : Nat) : Except RuntimeCause Value → Run Value
  | .ok value => fun m => .done value m
  | .error cause => fail line cause

def printLine (line : String) : Run Unit :=
  fun m => .done () { m with output := m.output.printLine line }

def define (name : String) (value : Value) : Run Unit :=
  fun m => .done () { m with heap := m.heap.define m.current name value }

/-- Reads a name: at its depth if it has one, and otherwise among the globals. -/
def read (name : Token) (depth : Option Nat) : Run Value :=
  fun m =>
    let found := match depth with
      | some distance => m.heap.getAt m.current distance name
      | none => m.heap.get Heap.globalFrame name
    match found with
    | .ok value => .done value m
    | .error error => .failed error m

/-- Writes a name: at its depth if it has one, and otherwise among the globals, where it has to be
bound already. -/
def assign (name : Token) (depth : Option Nat) (value : Value) : Run Unit :=
  fun m => match depth with
    | some distance =>
      .done () { m with heap := m.heap.assignAt m.current distance name.lexeme value }
    | none =>
      match m.heap.assign Heap.globalFrame name value with
      | (.ok (), heap) => .done () { m with heap := heap }
      | (.error error, heap) => .failed error { m with heap := heap }

section
variable (name : Token) (m : Machine)

theorem read_local (distance : Nat) :
    read name (some distance) m =
      match m.heap.own? (m.heap.ancestor m.current distance) name.lexeme with
      | some value => .done value m
      | none => .failed (.undefined name) m := by
  simp only [read, Heap.getAt, Heap.getAt?]
  cases m.heap.own? (m.heap.ancestor m.current distance) name.lexeme <;> rfl

theorem read_global :
    read name none m = match m.heap.own? Heap.globalFrame name.lexeme with
      | some value => .done value m
      | none => .failed (.undefined name) m := by
  unfold read Heap.get
  rw [Heap.get?_globalFrame]
  cases m.heap.own? Heap.globalFrame name.lexeme <;> rfl

theorem assign_global (value : Value) :
    assign name none value m =
      if (m.heap.own? Heap.globalFrame name.lexeme).isSome then
        .done () { m with heap := m.heap.define Heap.globalFrame name.lexeme value }
      else .failed (.undefined name) m := by
  unfold assign
  rw [Heap.assign_eq, Heap.holder?_globalFrame]
  cases m.heap.own? Heap.globalFrame name.lexeme <;> rfl

theorem read_cases (depth : Option Nat) :
    (∃ frame value, m.heap.own? frame name.lexeme = some value ∧
        read name depth m = .done value m) ∨
      read name depth m = .failed (.undefined name) m := by
  have seen (frame : Nat) (h : read name depth m = match m.heap.own? frame name.lexeme with
      | some value => .done value m
      | none => .failed (.undefined name) m) :
      (∃ frame value, m.heap.own? frame name.lexeme = some value ∧
          read name depth m = .done value m) ∨
        read name depth m = .failed (.undefined name) m := by
    cases hv : m.heap.own? frame name.lexeme with
    | some value => exact .inl ⟨frame, value, hv, by rw [h, hv]⟩
    | none => exact .inr (by rw [h, hv])
  cases depth with
  | some distance => exact seen _ (read_local name m distance)
  | none => exact seen _ (read_global name m)

theorem assign_cases (depth : Option Nat) (value : Value) :
    (∃ frame, assign name depth value m =
        .done () { m with heap := m.heap.define frame name.lexeme value }) ∨
      depth = none ∧ assign name depth value m = .failed (.undefined name) m := by
  cases depth with
  | some distance => exact .inl ⟨_, rfl⟩
  | none =>
    rw [assign_global]
    split
    · exact .inl ⟨_, rfl⟩
    · exact .inr ⟨rfl, rfl⟩

end

def makeClosure (function : Function) : Run Value :=
  fun m =>
    let callable := { identity := m.nextIdentity, callee := .closure function m.current }
    .done (.callable callable) { m with nextIdentity := m.nextIdentity + 1 }

def readClock : Run Value :=
  fun m =>
    .done (.number (m.clock.reading m.clock.taken))
      { m with clock := { m.clock with taken := m.clock.taken + 1 } }

/-- Runs a part in a new frame inside `enclosing`. The frame that was current before is current
again afterwards, however the part ends. -/
def inNewFrame {α : Type} (enclosing : Nat) (bindings : Bindings) (body : Run α) : Run α :=
  fun m =>
    let previous := m.current
    let (frame, heap) := m.heap.push enclosing bindings
    (body { m with heap := heap, current := frame }).onMachine ({ · with current := previous })

def inBlock {α : Type} (body : Run α) : Run α :=
  fun m => inNewFrame m.current [] body m

end Run

end Lox
