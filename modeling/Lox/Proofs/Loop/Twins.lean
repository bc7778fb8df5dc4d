import Lox.Proofs.Lexical.Relation
import Lox.Proofs.Loop.Layers
import Lox.Proofs.Machine.Discipline

/-!
# Machines that differ by spare frames

Two machines that have come from the same one, one with more frames than the other: the frames that
both have made correspond to each other, and those that only one has made bind nothing. Twins bind
alike in the frames that were there at first and in those that correspond; functions are alike if
their bodies are the same and what they captured differs by spare frames (`Chained`). Writing at
corresponding frames and entering a frame keep machines twins.
-/

namespace Lox.Loop

-- ---------------------------------------------------------------------------
-- Frames
-- ---------------------------------------------------------------------------

/-- Which frames of two machines correspond to each other, and which are spare. -/
structure Matching where
  /-- The number of frames that were there at first, the same ones on both machines. -/
  old : Nat
  /-- Frames that both have made since. -/
  pairs : List (Nat × Nat)
  left : List Nat
  right : List Nat

namespace Matching

def Paired (μ : Matching) (frame frame' : Nat) : Prop :=
  frame < μ.old ∧ frame' = frame ∨ (frame, frame') ∈ μ.pairs

structure Extends (μ μ' : Matching) : Prop where
  old : μ'.old = μ.old
  pairs : μ.pairs ⊆ μ'.pairs
  left : μ.left ⊆ μ'.left
  right : μ.right ⊆ μ'.right

theorem Extends.refl (μ : Matching) : μ.Extends μ :=
  ⟨rfl, List.Subset.refl _, List.Subset.refl _, List.Subset.refl _⟩

theorem Extends.trans {μ₁ μ₂ μ₃ : Matching} (h : μ₁.Extends μ₂) (h' : μ₂.Extends μ₃) :
    μ₁.Extends μ₃ :=
  ⟨h'.old.trans h.old, List.Subset.trans h.pairs h'.pairs, List.Subset.trans h.left h'.left,
    List.Subset.trans h.right h'.right⟩

def pair (μ : Matching) (frame frame' : Nat) : Matching :=
  { μ with pairs := (frame, frame') :: μ.pairs }

def spareLeft (μ : Matching) (frame : Nat) : Matching :=
  { μ with left := frame :: μ.left }

def spareRight (μ : Matching) (frame : Nat) : Matching :=
  { μ with right := frame :: μ.right }

theorem extends_pair (μ : Matching) (frame frame' : Nat) : μ.Extends (μ.pair frame frame') :=
  ⟨rfl, List.subset_cons_self .., List.Subset.refl _, List.Subset.refl _⟩

theorem extends_spareLeft (μ : Matching) (frame : Nat) : μ.Extends (μ.spareLeft frame) :=
  ⟨rfl, List.Subset.refl _, List.subset_cons_self .., List.Subset.refl _⟩

theorem extends_spareRight (μ : Matching) (frame : Nat) : μ.Extends (μ.spareRight frame) :=
  ⟨rfl, List.Subset.refl _, List.Subset.refl _, List.subset_cons_self ..⟩

theorem paired_pair {μ : Matching} {frame frame' other other' : Nat}
    (hp : (μ.pair frame frame').Paired other other') :
    other = frame ∧ other' = frame' ∨ μ.Paired other other' := by
  rcases hp with old | mem
  · exact .inr (.inl old)
  · rcases List.mem_cons.1 mem with same | mem
    · cases same
      exact .inl ⟨rfl, rfl⟩
    · exact .inr (.inr mem)

end Matching

/-- The frames around two places, from the inside out, layer by layer up to an old frame. -/
inductive Chained (μ : Matching) (h h' : Heap) : Layers → Nat → Nat → Prop
  | outside {frame} : frame < μ.old → Chained μ h h' [] frame frame
  | shared {σ frame frame' outer outer'} :
    (frame, frame') ∈ μ.pairs → h.enclosing? frame = some outer →
    h'.enclosing? frame' = some outer' →
    Chained μ h h' σ outer outer' → Chained μ h h' (.shared :: σ) frame frame'
  | left {σ frame frame' outer} :
    frame ∈ μ.left → h.enclosing? frame = some outer →
    Chained μ h h' σ outer frame' → Chained μ h h' (.left :: σ) frame frame'
  | right {σ frame frame' outer'} :
    frame' ∈ μ.right → h'.enclosing? frame' = some outer' →
    Chained μ h h' σ frame outer' → Chained μ h h' (.right :: σ) frame frame'

theorem Chained.mono {μ μ' : Matching} {h₁ h₂ h₁' h₂' : Heap} {σ : Layers} {frame frame' : Nat}
    (hc : Chained μ h₁ h₁' σ frame frame') (hg : h₁.Grows h₂) (hg' : h₁'.Grows h₂')
    (he : μ.Extends μ') : Chained μ' h₂ h₂' σ frame frame' := by
  induction hc with
  | outside old => exact .outside (he.old ▸ old)
  | shared pair link link' _ ih =>
    refine .shared (he.pairs pair) ?_ ?_ ih
    · rwa [hg.enclosing _ (Heap.lt_size_of_enclosing? link)]
    · rwa [hg'.enclosing _ (Heap.lt_size_of_enclosing? link')]
  | left spare link _ ih =>
    refine .left (he.left spare) ?_ ih
    rwa [hg.enclosing _ (Heap.lt_size_of_enclosing? link)]
  | right spare link _ ih =>
    refine .right (he.right spare) ?_ ih
    rwa [hg'.enclosing _ (Heap.lt_size_of_enclosing? link)]

-- ---------------------------------------------------------------------------
-- Values
-- ---------------------------------------------------------------------------

inductive SameCallee (μ : Matching) (h h' : Heap) : Callee → Callee → Prop
  | clock : SameCallee μ h h' .clock .clock
  | closure {σ name parameters body body' frame frame'} :
    SameStmts (.shared :: σ) body body' → Chained μ h h' σ frame frame' →
    SameCallee μ h h' (.closure ⟨name, parameters, body⟩ frame)
      (.closure ⟨name, parameters, body'⟩ frame')

/-- The same value; functions have the same identity, too. -/
inductive Same (μ : Matching) (h h' : Heap) : Value → Value → Prop
  | plain {v} : (∀ c, v ≠ .callable c) → Same μ h h' v v
  | callable {identity callee callee'} :
    SameCallee μ h h' callee callee' →
    Same μ h h' (.callable ⟨identity, callee⟩) (.callable ⟨identity, callee'⟩)

def SameBindings (μ : Matching) (h h' : Heap) (own own' : Bindings) : Prop :=
  ∀ name, Option.Rel (Same μ h h') (own.lookup name) (own'.lookup name)

theorem rel_imp {α β : Type} {R S : α → β → Prop} (h : ∀ a b, R a b → S a b) {a : Option α}
    {b : Option β} (hr : Option.Rel R a b) : Option.Rel S a b := by
  cases hr with
  | some hr => exact .some (h _ _ hr)
  | none => exact .none

section
variable {μ μ' : Matching} {h h' h₁ h₁' : Heap} {v v' w w' : Value}

theorem Same.mono (hs : Same μ h h' v w) (hg : h.Grows h₁) (hg' : h'.Grows h₁')
    (he : μ.Extends μ') :
    Same μ' h₁ h₁' v w := by
  cases hs with
  | plain none => exact .plain none
  | callable hc =>
    cases hc with
    | clock => exact .callable .clock
    | closure body chained => exact .callable (.closure body (chained.mono hg hg' he))

theorem Same.nil : Same μ h h' .nil .nil :=
  .plain (by simp)

theorem Same.ofConstant (c : Constant) : Same μ h h' (Value.ofConstant c) (Value.ofConstant c) :=
  .plain (by cases c <;> simp [Value.ofConstant])

theorem Same.truthy (hs : Same μ h h' v w) : v.truthy = w.truthy := by
  cases hs <;> rfl

theorem Same.text (hs : Same μ h h' v w) : v.text = w.text := by
  cases hs with
  | plain => rfl
  | callable hc => cases hc <;> rfl

theorem Same.equals (hv : Same μ h h' v w) (hv' : Same μ h h' v' w') :
    v.equals v' = w.equals w' := by
  cases hv with
  | plain =>
    cases hv' with
    | plain => rfl
    | callable => cases v <;> rfl
  | callable =>
    cases hv' with
    | plain none =>
      cases v' with
      | callable c => exact absurd rfl (none c)
      | _ => rfl
    | callable => rfl

theorem Same.plus (hv : Same μ h h' v w) (hv' : Same μ h h' v' w') :
    Value.plus v v' = Value.plus w w' := by
  cases hv with
  | plain =>
    cases hv' with
    | plain => rfl
    | callable => cases v <;> rfl
  | callable => rfl

theorem Same.onNumbers (rule : Float → Float → Value) (hv : Same μ h h' v w)
    (hv' : Same μ h h' v' w') : Value.onNumbers rule v v' = Value.onNumbers rule w w' := by
  cases hv with
  | plain =>
    cases hv' with
    | plain => rfl
    | callable => cases v <;> rfl
  | callable => rfl

theorem Same.binary (operator : Kind) (hv : Same μ h h' v w) (hv' : Same μ h h' v' w') :
    Value.binary operator v v' = Value.binary operator w w' := by
  simp only [Value.binary, hv.plus hv', hv.equals hv', hv.onNumbers _ hv']

theorem Same.unary (operator : Kind) (hv : Same μ h h' v w) :
    Value.unary operator v = Value.unary operator w := by
  cases hv with
  | plain => rfl
  | callable => cases operator <;> rfl

theorem binary_ne_callable {operator : Kind} {a b : Value}
    (hv : Value.binary operator a b = .ok v) :
    ∀ c, v ≠ .callable c := by
  unfold Value.binary Value.plus Value.onNumbers at hv
  repeat' split at hv
  all_goals cases hv <;> simp

theorem unary_ne_callable {operator : Kind} {a : Value} (hv : Value.unary operator a = .ok v) :
    ∀ c, v ≠ .callable c := by
  unfold Value.unary at hv
  split at hv <;> cases hv <;> simp

theorem SameBindings.insert {own own' : Bindings} (hb : SameBindings μ h h' own own')
    (name : String)
    (hv : Same μ h h' v w) : SameBindings μ h h' (own.insert name v) (own'.insert name w) := by
  intro key
  rw [Bindings.lookup_insert, Bindings.lookup_insert]
  split
  · exact .some hv
  · exact hb key

theorem SameBindings.arguments (parameters : List Token) {values values' : List Value}
    (hv : List.Forall₂ (Same μ h h') values values') {own own' : Bindings}
    (hb : SameBindings μ h h' own own') :
    SameBindings μ h h'
      ((parameters.zip values).foldl (fun b (p, v) => b.insert p.lexeme v) own)
      ((parameters.zip values').foldl (fun b (p, v) => b.insert p.lexeme v) own') := by
  induction hv generalizing parameters own own' with
  | nil => simpa using hb
  | cons hv _ ih =>
    cases parameters with
    | nil => exact hb
    | cons p rest => exact ih rest (hb.insert p.lexeme hv)

theorem SameBindings.nil : SameBindings μ h h' [] [] :=
  fun _ => .none

end

-- ---------------------------------------------------------------------------
-- Machines
-- ---------------------------------------------------------------------------

/-- A spare frame of a heap: newer than the old ones, in no pair, and without a name. -/
structure Spare (old : Nat) (paired : List Nat) (h : Heap) (frame : Nat) : Prop where
  new : old ≤ frame
  inside : frame < h.frames.size
  unpaired : frame ∉ paired
  empty : ∀ name, h.own? frame name = none

/-- Two machines that have printed the same and bind the same in the frames that correspond. -/
structure Twins (μ : Matching) (m m' : Machine) : Prop where
  global : Heap.globalFrame < μ.old
  size : μ.old ≤ m.heap.frames.size
  size' : μ.old ≤ m'.heap.frames.size
  new : ∀ p ∈ μ.pairs, μ.old ≤ p.1 ∧ p.1 < m.heap.frames.size
  new' : ∀ p ∈ μ.pairs, μ.old ≤ p.2 ∧ p.2 < m'.heap.frames.size
  single : ∀ p ∈ μ.pairs, ∀ q ∈ μ.pairs, p.1 = q.1 ↔ p.2 = q.2
  left : ∀ frame ∈ μ.left, Spare μ.old (μ.pairs.map Prod.fst) m.heap frame
  right : ∀ frame ∈ μ.right, Spare μ.old (μ.pairs.map Prod.snd) m'.heap frame
  links : ∀ frame < μ.old, m'.heap.enclosing? frame = m.heap.enclosing? frame
  bound : ∀ frame frame', μ.Paired frame frame' → ∀ name, Option.Rel (Same μ m.heap m'.heap)
    (m.heap.own? frame name) (m'.heap.own? frame' name)
  output : m'.output = m.output
  nextIdentity : m'.nextIdentity = m.nextIdentity
  clock : m'.clock = m.clock

section
variable {μ : Matching} {m m' : Machine} {σ : Layers} {frame frame' other other' : Nat}

theorem Twins.paired_iff (ht : Twins μ m m') (hp : μ.Paired frame frame')
    (hq : μ.Paired other other') : frame = other ↔ frame' = other' := by
  obtain ⟨old, rfl⟩ | pair := hp
  · obtain ⟨old', rfl⟩ | pair' := hq
    · exact Iff.rfl
    · have new := (ht.new _ pair').1
      have new' := (ht.new' _ pair').1
      dsimp only at new new'
      omega
  · obtain ⟨old', rfl⟩ | pair' := hq
    · have new := (ht.new _ pair).1
      have new' := (ht.new' _ pair).1
      dsimp only at new new'
      omega
    · exact ht.single _ pair _ pair'

theorem Twins.paired_lt (ht : Twins μ m m') (hp : μ.Paired frame frame') :
    frame < m.heap.frames.size ∧ frame' < m'.heap.frames.size := by
  obtain ⟨old, rfl⟩ | pair := hp
  · exact ⟨Nat.lt_of_lt_of_le old ht.size, Nat.lt_of_lt_of_le old ht.size'⟩
  · exact ⟨(ht.new _ pair).2, (ht.new' _ pair).2⟩

theorem Twins.chained_lt (ht : Twins μ m m') (hc : Chained μ m.heap m'.heap σ frame frame') :
    frame < m.heap.frames.size ∧ frame' < m'.heap.frames.size := by
  induction hc with
  | outside old => exact ht.paired_lt (.inl ⟨old, rfl⟩)
  | shared pair => exact ht.paired_lt (.inr pair)
  | left spare _ _ ih => exact ⟨(ht.left _ spare).inside, ih.2⟩
  | right spare _ _ ih => exact ⟨ih.1, (ht.right _ spare).inside⟩

theorem Twins.ancestor_old (ht : Twins μ m m') (old : frame < μ.old) (d : Nat) :
    μ.Paired (m.heap.ancestor frame d) (m'.heap.ancestor frame d) := by
  induction d generalizing frame with
  | zero => exact .inl ⟨old, rfl⟩
  | succ d ih =>
    unfold Heap.ancestor
    rw [ht.links frame old]
    split
    · next outer link => exact ih (Nat.lt_trans (Heap.enclosing?_lt link) old)
    · exact .inl ⟨old, rfl⟩

/-- Distances across the layers lead to frames that correspond. -/
theorem Twins.ancestor (ht : Twins μ m m') (hc : Chained μ m.heap m'.heap σ frame frame')
    {d d' : Nat}
    (ha : Across σ d d') : μ.Paired (m.heap.ancestor frame d) (m'.heap.ancestor frame' d') := by
  induction hc generalizing d d' with
  | outside old =>
    cases ha
    exact ht.ancestor_old old d
  | shared pair link link' _ ih =>
    cases ha with
    | here => exact .inr pair
    | shared ha =>
      rw [Heap.ancestor, link, Heap.ancestor, link']
      exact ih ha
  | left _ link _ ih =>
    cases ha with
    | left ha =>
      rw [Heap.ancestor, link]
      exact ih ha
  | right _ link _ ih =>
    cases ha with
    | right ha =>
      rw [Heap.ancestor.eq_def m'.heap, link]
      exact ih ha

theorem Twins.withSupplies {m₁ m₁' : Machine} (ht : Twins μ m m') (hh : m₁.heap = m.heap)
    (hh' : m₁'.heap = m'.heap) (output : m₁'.output = m₁.output)
    (nextIdentity : m₁'.nextIdentity = m₁.nextIdentity) (clock : m₁'.clock = m₁.clock) :
    Twins μ m₁ m₁' where
  global := ht.global
  size := hh ▸ ht.size
  size' := hh' ▸ ht.size'
  new := hh ▸ ht.new
  new' := hh' ▸ ht.new'
  single := ht.single
  left := hh ▸ ht.left
  right := hh' ▸ ht.right
  links := by rw [hh, hh']; exact ht.links
  bound := by rw [hh, hh']; exact ht.bound
  output := output
  nextIdentity := nextIdentity
  clock := clock

theorem Spare.define {old : Nat} {paired : List Nat} {h : Heap} (hs : Spare old paired h frame)
    (hp : other < old ∨ other ∈ paired) (name : String) (v : Value) :
    Spare old paired (h.define other name v) frame where
  new := hs.new
  inside := by simpa using hs.inside
  unpaired := hs.unpaired
  empty key := by
    have apart : other ≠ frame := by
      rintro rfl
      exact hp.elim (Nat.not_lt_of_le hs.new) hs.unpaired
    rw [Heap.own?_define, if_neg fun here => apart here.1]
    exact hs.empty key

theorem Twins.write (ht : Twins μ m m') (hp : μ.Paired frame frame') (name : String) {v w : Value}
    (hv : Same μ m.heap m'.heap v w) :
    Twins μ { m with heap := m.heap.define frame name v }
      { m' with heap := m'.heap.define frame' name w } := by
  have grows := Heap.Grows.define m.heap frame name v
  have grows' := Heap.Grows.define m'.heap frame' name w
  refine { ht with
    size := by simpa using ht.size
    size' := by simpa using ht.size'
    new := by simpa using ht.new
    new' := by simpa using ht.new'
    left := fun spare mem => (ht.left spare mem).define ?_ name v
    right := fun spare mem => (ht.right spare mem).define ?_ name w
    links := fun other old => ?_
    bound := fun other other' hq key => ?_ }
  · exact hp.imp And.left (List.mem_map_of_mem (f := Prod.fst))
  · obtain ⟨old, rfl⟩ | pair := hp
    · exact .inl old
    · exact .inr (List.mem_map_of_mem (f := Prod.snd) pair)
  · simp only [Heap.enclosing?_define]
    exact ht.links other old
  · have same := ht.paired_iff hp hq
    obtain ⟨here, here'⟩ := ht.paired_lt hq
    simp only [Heap.own?_define, same, here, here', true_and]
    split
    · exact .some (hv.mono grows grows' (.refl μ))
    · exact rel_imp (fun _ _ hs => hs.mono grows grows' (.refl μ)) (ht.bound other other' hq key)

theorem Spare.push {old : Nat} {paired : List Nat} {h : Heap} (hs : Spare old paired h frame)
    (outer : Nat) (own : Bindings) : Spare old paired (h.push outer own).2 frame where
  new := hs.new
  inside := by simpa using Nat.lt_succ_of_lt hs.inside
  unpaired := hs.unpaired
  empty key := by
    rw [Heap.own?_push, if_neg (Nat.ne_of_lt hs.inside)]
    exact hs.empty key

theorem Spare.pair {old : Nat} {paired : List Nat} {h : Heap} (hs : Spare old paired h frame)
    (ho : frame ≠ other) : Spare old (other :: paired) h frame :=
  ⟨hs.new, hs.inside, by simpa using ⟨ho, hs.unpaired⟩, hs.empty⟩

theorem Spare.pushed {old : Nat} {paired : List Nat} {h : Heap} (ho : old ≤ h.frames.size)
    (hp : ∀ frame ∈ paired, frame < h.frames.size) (outer : Nat) :
    Spare old paired (h.push outer []).2 h.frames.size where
  new := ho
  inside := by simp
  unpaired mem := Nat.lt_irrefl _ (hp _ mem)
  empty key := by rw [Heap.own?_push, if_pos rfl]; rfl

theorem Twins.single_next (ht : Twins μ m m') :
    let pairs := (m.heap.frames.size, m'.heap.frames.size) :: μ.pairs
    ∀ p ∈ pairs, ∀ q ∈ pairs, p.1 = q.1 ↔ p.2 = q.2 := by
  dsimp only
  rintro p (_ | ⟨_, hp⟩) q (_ | ⟨_, hq⟩)
  · exact ⟨fun _ => rfl, fun _ => rfl⟩
  · have := ht.new q hq
    have := ht.new' q hq
    dsimp only
    omega
  · have := ht.new p hp
    have := ht.new' p hp
    dsimp only
    omega
  · exact ht.single p hp q hq

theorem Twins.enter (ht : Twins μ m m') (hc : Chained μ m.heap m'.heap σ frame frame')
    {own own' : Bindings} (hb : SameBindings μ m.heap m'.heap own own') :
    ∃ μ', μ.Extends μ' ∧ Twins μ' (m.entered frame own) (m'.entered frame' own') ∧
      Chained μ' (m.entered frame own).heap (m'.entered frame' own').heap (.shared :: σ)
        (m.entered frame own).current (m'.entered frame' own').current := by
  have grows := Heap.Grows.push m.heap frame own
  have grows' := Heap.Grows.push m'.heap frame' own'
  obtain ⟨inside, inside'⟩ := ht.chained_lt hc
  let μ' := μ.pair m.heap.frames.size m'.heap.frames.size
  have extends' : μ.Extends μ' := μ.extends_pair ..
  have larger : m.heap.frames.size ≤ (m.entered frame own).heap.frames.size := grows.size
  have larger' : m'.heap.frames.size ≤ (m'.entered frame' own').heap.frames.size := grows'.size
  refine ⟨μ', extends', ?_, ?_⟩
  · refine { ht with
      size := Nat.le_trans ht.size larger
      size' := Nat.le_trans ht.size' larger'
      new := List.forall_mem_cons.2 ⟨⟨ht.size, by simp [Machine.entered]⟩, fun p mem =>
        ⟨(ht.new p mem).1, Nat.lt_of_lt_of_le (ht.new p mem).2 larger⟩⟩
      new' := List.forall_mem_cons.2 ⟨⟨ht.size', by simp [Machine.entered]⟩, fun p mem =>
        ⟨(ht.new' p mem).1, Nat.lt_of_lt_of_le (ht.new' p mem).2 larger'⟩⟩
      single := ht.single_next
      left := fun spare mem =>
        ((ht.left spare mem).pair (Nat.ne_of_lt (ht.left spare mem).inside)).push frame own
      right := fun spare mem =>
        ((ht.right spare mem).pair (Nat.ne_of_lt (ht.right spare mem).inside)).push frame' own'
      links := fun other old => ?_
      bound := ?_ }
    · have link := grows.enclosing other (Nat.lt_of_lt_of_le old ht.size)
      have link' := grows'.enclosing other (Nat.lt_of_lt_of_le old ht.size')
      exact link'.trans ((ht.links other old).trans link.symm)
    · intro other other' hq key
      simp only [Machine.entered, Heap.own?_push]
      obtain ⟨rfl, rfl⟩ | hq := Matching.paired_pair hq
      · rw [if_pos rfl, if_pos rfl]
        exact rel_imp (fun _ _ hs => hs.mono grows grows' extends') (hb key)
      · obtain ⟨here, here'⟩ := ht.paired_lt hq
        rw [if_neg (Nat.ne_of_lt here), if_neg (Nat.ne_of_lt here')]
        exact rel_imp (fun _ _ hs => hs.mono grows grows' extends') (ht.bound other other' hq key)
  · exact .shared (List.mem_cons_self ..) (Heap.enclosing?_push_self inside own)
      (Heap.enclosing?_push_self inside' own') (hc.mono grows grows' extends')

theorem Twins.enterLeft (ht : Twins μ m m') (hc : Chained μ m.heap m'.heap σ frame frame') :
    ∃ μ', μ.Extends μ' ∧ Twins μ' (m.entered frame []) m' ∧
      Chained μ' (m.entered frame []).heap m'.heap (.left :: σ) (m.entered frame []).current
        frame' := by
  have grows := Heap.Grows.push m.heap frame []
  have inside := (ht.chained_lt hc).1
  let μ' := μ.spareLeft m.heap.frames.size
  have extends' : μ.Extends μ' := μ.extends_spareLeft _
  have paired : ∀ other ∈ μ.pairs.map Prod.fst, other < m.heap.frames.size := by
    intro other mem
    obtain ⟨p, pair, rfl⟩ := List.mem_map.1 mem
    exact (ht.new p pair).2
  refine ⟨μ', extends', ?_, ?_⟩
  · refine { ht with
      size := Nat.le_trans ht.size grows.size
      new := fun p mem => ⟨(ht.new p mem).1, Nat.lt_of_lt_of_le (ht.new p mem).2 grows.size⟩
      left := List.forall_mem_cons.2 ⟨.pushed ht.size paired frame,
        fun spare mem => (ht.left spare mem).push frame []⟩
      links := fun other old => ?_
      bound := fun other other' hq key => ?_ }
    · have link := grows.enclosing other (Nat.lt_of_lt_of_le old ht.size)
      exact (ht.links other old).trans link.symm
    · have here := (ht.paired_lt hq).1
      simp only [Machine.entered, Heap.own?_push]
      rw [if_neg (Nat.ne_of_lt here)]
      exact rel_imp (fun _ _ hs => hs.mono grows (.refl _) extends') (ht.bound other other' hq key)
  · exact .left (List.mem_cons_self ..) (Heap.enclosing?_push_self inside [])
      (hc.mono grows (.refl _) extends')

theorem Twins.enterRight (ht : Twins μ m m') (hc : Chained μ m.heap m'.heap σ frame frame') :
    ∃ μ', μ.Extends μ' ∧ Twins μ' m (m'.entered frame' []) ∧
      Chained μ' m.heap (m'.entered frame' []).heap (.right :: σ) frame
        (m'.entered frame' []).current := by
  have grows' := Heap.Grows.push m'.heap frame' []
  have inside' := (ht.chained_lt hc).2
  let μ' := μ.spareRight m'.heap.frames.size
  have extends' : μ.Extends μ' := μ.extends_spareRight _
  have paired' : ∀ other ∈ μ.pairs.map Prod.snd, other < m'.heap.frames.size := by
    intro other mem
    obtain ⟨p, pair, rfl⟩ := List.mem_map.1 mem
    exact (ht.new' p pair).2
  refine ⟨μ', extends', ?_, ?_⟩
  · refine { ht with
      size' := Nat.le_trans ht.size' grows'.size
      new' := fun p mem => ⟨(ht.new' p mem).1, Nat.lt_of_lt_of_le (ht.new' p mem).2 grows'.size⟩
      right := List.forall_mem_cons.2 ⟨.pushed ht.size' paired' frame',
        fun spare mem => (ht.right spare mem).push frame' []⟩
      links := fun other old => ?_
      bound := fun other other' hq key => ?_ }
    · have link' := grows'.enclosing other (Nat.lt_of_lt_of_le old ht.size')
      exact link'.trans (ht.links other old)
    · have here' := (ht.paired_lt hq).2
      simp only [Machine.entered, Heap.own?_push]
      rw [if_neg (Nat.ne_of_lt here')]
      exact rel_imp (fun _ _ hs => hs.mono (.refl _) grows' extends') (ht.bound other other' hq key)
  · exact .right (List.mem_cons_self ..) (Heap.enclosing?_push_self inside' [])
      (hc.mono (.refl _) grows' extends')

def Matching.start (m : Machine) : Matching :=
  ⟨m.heap.frames.size, [], [], []⟩

theorem Twins.self (hm : m.WellFormed) : Twins (.start m) m m where
  global := hm.heap.global
  size := Nat.le_refl _
  size' := Nat.le_refl _
  new := by simp [Matching.start]
  new' := by simp [Matching.start]
  single := by simp [Matching.start]
  left := by simp [Matching.start]
  right := by simp [Matching.start]
  links _ _ := rfl
  bound := by
    rintro frame frame' (⟨old, rfl⟩ | pair) name
    case inr => cases pair
    cases hv : m.heap.own? frame' name with
    | none => exact .none
    | some v =>
      have anchored := hm.heap.anchored hv
      cases v with
      | callable c =>
        obtain ⟨identity, callee⟩ := c
        cases callee with
        | clock => exact .some (.callable .clock)
        | closure function captured =>
          have plain : Plain [.shared] := by simp [Plain]
          exact .some (.callable (.closure (.refl plain function.body) (.outside anchored)))
      | _ => exact .some (.plain (by simp))
  output := rfl
  nextIdentity := rfl
  clock := rfl

end

end Lox.Loop
