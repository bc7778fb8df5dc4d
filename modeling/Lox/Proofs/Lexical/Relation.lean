import Mathlib.Data.List.Forall2
import Lox.Proofs.Lexical.Semantics
import Lox.Proofs.Machine.Fitting

/-!
# Cells stand for names in frames

A machine and a store that run the same program are related through the places of its cells: the
cell with a number stands for one name in one frame. No two cells have one place, and every name
that a local frame binds is the place of a cell, so a frame that gains a name after a function
captured it changes no cell the function knows.

`Sees` is the point of contact with scopes: a name has a cell in the environment exactly if the
scopes declare it, and the place of the cell is the name in the frame that its distance leads to.
-/

namespace Lox

theorem Heap.Grows.ancestor {h h' : Heap} (hg : h.Grows h') {frame : Nat}
    (hf : frame < h.frames.size) (distance : Nat) :
    h'.ancestor frame distance = h.ancestor frame distance := by
  induction distance generalizing frame with
  | zero => rfl
  | succ d ih =>
    unfold Heap.ancestor
    rw [hg.enclosing frame hf]
    split
    · next outer he => exact ih (Nat.lt_trans (Heap.enclosing?_lt he) hf)
    · rfl

theorem Heap.enclosing?_push_self {h : Heap} {outer : Nat} (ho : outer < h.frames.size)
    (own : Bindings) : (h.push outer own).2.enclosing? h.frames.size = some outer := by
  rw [enclosing?_push, if_pos rfl]
  exact Option.filter_eq_some_iff.2 ⟨rfl, by simpa using ho⟩

theorem Heap.define_push (h : Heap) (outer : Nat) (own : Bindings) (name : String) (value : Value) :
    (h.push outer own).2.define h.frames.size name value =
    (h.push outer (own.insert name value)).2 := by
  unfold push define
  congr 1
  refine Array.ext_getElem? fun i => ?_
  rw [Array.getElem?_modify, Array.getElem?_push, Array.getElem?_push]
  by_cases hi : i = h.frames.size
  · simp [hi]
  · simp [hi, Ne.symm hi]

namespace Lexical

/-- The frame and the name that each cell stands for. -/
abbrev Places := List (Nat × String)

/-- Places that go on from earlier ones, with new cells only in frames from `bound` on. -/
def Places.Extends (bound : Nat) (places places' : Places) : Prop :=
  ∃ new, places' = places ++ new ∧ ∀ place ∈ new, bound ≤ place.1

namespace Places

variable {bound : Nat} {places places' places'' : Places}

theorem Extends.refl (bound : Nat) (places : Places) : places.Extends bound places :=
  ⟨[], by simp⟩

theorem Extends.trans (h : places.Extends bound places') (h' : places'.Extends bound places'') :
    places.Extends bound places'' := by
  obtain ⟨new, rfl, hn⟩ := h
  obtain ⟨newer, rfl, hn'⟩ := h'
  refine ⟨new ++ newer, List.append_assoc .., fun place hp => ?_⟩
  exact (List.mem_append.1 hp).elim (hn place) (hn' place)

theorem Extends.push {frame : Nat} (name : String) (h : bound ≤ frame) :
    places.Extends bound (places ++ [(frame, name)]) :=
  ⟨[(frame, name)], rfl, by simpa using h⟩

theorem Extends.weaken {smaller : Nat} (h : places.Extends bound places') (hb : smaller ≤ bound) :
    places.Extends smaller places' := by
  obtain ⟨new, rfl, hn⟩ := h
  exact ⟨new, rfl, fun place hp => Nat.le_trans hb (hn place hp)⟩

theorem Extends.getElem? (h : places.Extends bound places') {cell : Nat} {place : Nat × String}
    (hc : places[cell]? = some place) : places'[cell]? = some place := by
  obtain ⟨new, rfl, -⟩ := h
  rw [List.getElem?_append_left (List.getElem?_eq_some_iff.1 hc).1]
  exact hc

theorem Extends.mem_of_lt (h : places.Extends bound places') {place : Nat × String}
    (hp : place ∈ places') (hb : place.1 < bound) : place ∈ places := by
  obtain ⟨new, rfl, hn⟩ := h
  rcases List.mem_append.1 hp with hp | hp
  · exact hp
  · exact absurd hb (Nat.not_lt_of_le (hn place hp))

end Places

-- ---------------------------------------------------------------------------
-- Environments and scopes
-- ---------------------------------------------------------------------------

/-- The scopes of a place and the frame they have there, seen as an environment. -/
structure Sees (h : Heap) (places : Places) (scopes : List Scope) (frame : Nat)
    (env : Environment) :
    Prop where
  size : frame < h.frames.size
  global : scopes = [] → frame = Heap.globalFrame
  names : ∀ name, Option.Rel
    (fun distance cell => places[cell]? = some (h.ancestor frame distance, name))
    (scopes.findIdx? (·.declares name)) (env.lookup name)

namespace Sees

variable {h h' : Heap} {places places' : Places} {scopes outer : List Scope} {scope : Scope}
  {frame bound : Nat} {env : Environment}

theorem topLevel (hz : 0 < h.frames.size) (places : Places) :
    Sees h places [] Heap.globalFrame [] :=
  ⟨hz, fun _ => rfl, fun _ => .none⟩

theorem mono (hs : Sees h places scopes frame env) (hg : h.Grows h')
    (he : places.Extends bound places') : Sees h' places' scopes frame env where
  size := Nat.lt_of_lt_of_le hs.size hg.size
  global := hs.global
  names name := by
    have seen := hs.names name
    revert seen
    generalize scopes.findIdx? (·.declares name) = distance
    generalize env.lookup name = cell
    rintro (hc | -)
    · refine .some ?_
      rw [hg.ancestor hs.size]
      exact he.getElem? hc
    · exact .none

theorem enter (hs : Sees h places scopes frame env) (own : Bindings) :
    Sees (h.push frame own).2 places ([] :: scopes) h.frames.size env where
  size := by simp
  global hn := by cases hn
  names name := by
    have seen := (hs.mono (.push h frame own) (.refl 0 places)).names name
    rw [List.findIdx?_cons]
    revert seen
    generalize scopes.findIdx? (·.declares name) = distance
    generalize env.lookup name = cell
    rintro (hc | -)
    · refine .some ?_
      rw [hc, Heap.ancestor, Heap.enclosing?_push_self hs.size]
    · exact .none

theorem declare (hs : Sees h places (scope :: outer) frame env) (name : String) (ready : Bool) :
    Sees h (places ++ [(frame, name)]) (scope.mark name ready :: outer) frame
      ((name, places.length) :: env) where
  size := hs.size
  global hn := by cases hn
  names key := by
    by_cases same : key = name
    · subst same
      rw [List.findIdx?_cons, List.lookup_cons]
      simp only [Scope.declares_mark, decide_true, Bool.true_or, if_true, BEq.rfl]
      exact .some (by simp [Heap.ancestor])
    · have extended : places.Extends 0 (places ++ [(frame, name)]) := .push name (Nat.zero_le _)
      have seen := (hs.mono (.refl h) extended).names key
      rw [List.findIdx?_cons] at seen ⊢
      rw [List.lookup_cons, beq_eq_false_iff_ne.2 same]
      simpa [same] using seen

theorem congr {scopes' : List Scope} (hs : Sees h places scopes frame env)
    (hn : scopes' = [] → scopes = [])
    (hd : ∀ name, scopes'.findIdx? (·.declares name) = scopes.findIdx? (·.declares name)) :
    Sees h places scopes' frame env :=
  ⟨hs.size, fun h => hs.global (hn h), fun name => hd name ▸ hs.names name⟩

theorem introduce {name : String}
    (hs : Sees h places (scopes.modifyHead (·.mark name false)) frame env) :
    Sees h places (scopes.modifyHead (·.introduce name)) frame env := by
  cases scopes with
  | nil => exact hs
  | cons scope outer =>
    refine hs.congr (fun hn => by cases hn) fun key => ?_
    simp only [List.modifyHead_cons, List.findIdx?_cons]
    have same : (scope.introduce name).declares key = (scope.mark name false).declares key := by
      simp [Scope.introduce]
    rw [same]

end Sees

-- ---------------------------------------------------------------------------
-- Values
-- ---------------------------------------------------------------------------

inductive SameCallee (h : Heap) (places : Places) : Callee → Callee Environment → Prop
  | clock : SameCallee h places .clock .clock
  | closure {function frame env} {s : Scopes} :
    Sees h places s.locals frame env → function.Accepted s →
    SameCallee h places (.closure function frame) (.closure function env)

/-- The same value; functions have the same identity, too. -/
inductive Same (h : Heap) (places : Places) : Value → Value Environment → Prop
  | nil : Same h places .nil .nil
  | boolean (value : Bool) : Same h places (.boolean value) (.boolean value)
  | number (value : Float) : Same h places (.number value) (.number value)
  | string (text : String) : Same h places (.string text) (.string text)
  | callable {identity callee callee'} :
    SameCallee h places callee callee' →
    Same h places (.callable ⟨identity, callee⟩) (.callable ⟨identity, callee'⟩)

namespace Same

variable {h h' : Heap} {places places' : Places} {bound : Nat} {v v' : Value}
  {w w' : Value Environment}

theorem mono (hs : Same h places v w) (hg : h.Grows h') (he : places.Extends bound places') :
    Same h' places' v w := by
  cases hs with
  | callable hc =>
    cases hc with
    | clock => exact .callable .clock
    | closure seen accepted => exact .callable (.closure (seen.mono hg he) accepted)
  | nil => exact .nil
  | boolean => exact .boolean _
  | number => exact .number _
  | string => exact .string _

theorem ofConstant (c : Constant) : Same h places (Value.ofConstant c) (Value.ofConstant c) := by
  cases c with
  | nil => exact .nil
  | boolean => exact .boolean _
  | number => exact .number _
  | string => exact .string _

theorem truthy (hs : Same h places v w) : v.truthy = w.truthy := by
  cases hs <;> rfl

theorem text (hs : Same h places v w) : v.text = w.text := by
  cases hs with
  | callable hc => cases hc <;> rfl
  | boolean value => cases value <;> rfl
  | _ => rfl

theorem equals (hv : Same h places v w) (hv' : Same h places v' w') :
    v.equals v' = w.equals w' := by
  cases hv <;> cases hv' <;> rfl

end Same

inductive SameAnswer (h : Heap) (places : Places) :
    Except RuntimeCause Value → Except RuntimeCause (Value Environment) → Prop
  | ok {v w} : Same h places v w → SameAnswer h places (.ok v) (.ok w)
  | error (cause : RuntimeCause) : SameAnswer h places (.error cause) (.error cause)

section
variable {h : Heap} {places : Places} {v v' : Value} {w w' : Value Environment}

theorem Same.unary (operator : Kind) (hs : Same h places v w) :
    SameAnswer h places (Value.unary operator v) (Value.unary operator w) := by
  cases operator with
  | minus =>
    cases hs with
    | number x => exact .ok (.number _)
    | _ => exact .error _
  | bang =>
    show SameAnswer h places (.ok (.boolean (!v.truthy))) (.ok (.boolean (!w.truthy)))
    rw [hs.truthy]
    exact .ok (.boolean _)
  | _ => exact .error _

theorem Same.onNumbers {rule : Float → Float → Value} {rule' : Float → Float → Value Environment}
    (hr : ∀ x y, Same h places (rule x y) (rule' x y)) (hv : Same h places v w)
    (hv' : Same h places v' w') :
    SameAnswer h places (Value.onNumbers rule v v') (Value.onNumbers rule' w w') := by
  cases hv with
  | number x =>
    cases hv' with
    | number y => exact .ok (hr x y)
    | _ => exact .error _
  | _ => exact .error _

theorem Same.plus (hv : Same h places v w) (hv' : Same h places v' w') :
    SameAnswer h places (Value.plus v v') (Value.plus w w') := by
  cases hv with
  | number x =>
    cases hv' with
    | number y => exact .ok (.number _)
    | _ => exact .error _
  | string x =>
    cases hv' with
    | string y => exact .ok (.string _)
    | _ => exact .error _
  | _ => exact .error _

theorem Same.binary (operator : Kind) (hv : Same h places v w) (hv' : Same h places v' w') :
    SameAnswer h places (Value.binary operator v v') (Value.binary operator w w') := by
  unfold Value.binary
  split
  · exact hv.plus hv'
  · exact Same.onNumbers (fun _ _ => .number _) hv hv'
  · exact Same.onNumbers (fun _ _ => .number _) hv hv'
  · exact Same.onNumbers (fun _ _ => .number _) hv hv'
  · exact Same.onNumbers (fun _ _ => .boolean _) hv hv'
  · exact Same.onNumbers (fun _ _ => .boolean _) hv hv'
  · exact Same.onNumbers (fun _ _ => .boolean _) hv hv'
  · exact Same.onNumbers (fun _ _ => .boolean _) hv hv'
  · rw [hv.equals hv']
    exact .ok (.boolean _)
  · rw [hv.equals hv']
    exact .ok (.boolean _)
  · exact .error _

end

-- ---------------------------------------------------------------------------
-- Machines and stores
-- ---------------------------------------------------------------------------

def SameBinding (h : Heap) (places : Places) (a : String × Value) (b : String × Value Environment) :
    Prop :=
  a.1 = b.1 ∧ Same h places a.2 b.2

structure Related (places : Places) (m : Machine) (s : Store) : Prop where
  length : places.length = s.cells.length
  nodup : places.Nodup
  local_frames : ∀ place ∈ places, Heap.globalFrame < place.1 ∧ place.1 < m.heap.frames.size
  bound : ∀ frame name, frame ≠ Heap.globalFrame → (m.heap.own? frame name).isSome →
    (frame, name) ∈ places
  cells : ∀ (cell frame : Nat) (name : String), places[cell]? = some (frame, name) →
    Option.Rel (Same m.heap places) (m.heap.own? frame name) (s.content cell)
  globals : List.Forall₂ (SameBinding m.heap places) (m.heap.bindings Heap.globalFrame) s.globals
  global_frame : Heap.globalFrame < m.heap.frames.size
  output : m.output = s.output
  nextIdentity : m.nextIdentity = s.nextIdentity
  clock : m.clock = s.clock

theorem Store.content_write (s : Store) (cell other : Nat) (w : Value Environment) :
    (s.write cell w).content other =
      if cell = other ∧ other < s.cells.length then some w else s.content other := by
  unfold content write
  rw [List.getElem?_set]
  by_cases same : cell = other
  · subst same
    by_cases small : cell < s.cells.length <;> simp [small]
  · simp [same]

theorem sameBinding_insert {h : Heap} {places : Places} {b : Bindings} {b' : Bindings Environment}
    (hb : List.Forall₂ (SameBinding h places) b b') (name : String) {v : Value}
    {w : Value Environment} (hv : Same h places v w) :
    List.Forall₂ (SameBinding h places) (b.insert name v) (b'.insert name w) := by
  induction hb with
  | nil => exact .cons ⟨rfl, hv⟩ .nil
  | @cons a a' rest rest' ha hr ih =>
    obtain ⟨key, old⟩ := a
    obtain ⟨key', old'⟩ := a'
    obtain ⟨rfl, ho⟩ := ha
    unfold Bindings.insert
    split
    · exact .cons ⟨rfl, hv⟩ hr
    · exact .cons ⟨rfl, ho⟩ ih

theorem sameBinding_lookup {h : Heap} {places : Places} {b : Bindings} {b' : Bindings Environment}
    (hb : List.Forall₂ (SameBinding h places) b b') (name : String) :
    Option.Rel (Same h places) (b.lookup name) (b'.lookup name) := by
  induction hb with
  | nil => exact .none
  | @cons a a' rest rest' ha _ ih =>
    obtain ⟨key, old⟩ := a
    obtain ⟨key', old'⟩ := a'
    obtain ⟨rfl, ho⟩ := ha
    rw [List.lookup_cons, List.lookup_cons]
    dsimp only
    cases name == key with
    | true => exact .some ho
    | false => exact ih

namespace Related

variable {places : Places} {m : Machine} {s : Store}

theorem mono_globals {h h' : Heap} {places places' : Places} {bound : Nat} (hg : h.Grows h')
    (he : places.Extends bound places') {b : Bindings} {b' : Bindings Environment}
    (hb : List.Forall₂ (SameBinding h places) b b') : List.Forall₂ (SameBinding h' places') b b' :=
  hb.imp fun _ _ hs => ⟨hs.1, hs.2.mono hg he⟩

theorem mono_cells {h h' : Heap} {places places' : Places} {bound : Nat} (hg : h.Grows h')
    (he : places.Extends bound places') {a : Option Value} {b : Option (Value Environment)}
    (hc : Option.Rel (Same h places) a b) : Option.Rel (Same h' places') a b := by
  cases hc with
  | some hs => exact .some (hs.mono hg he)
  | none => exact .none

theorem withSupplies (hr : Related places m s) {m' : Machine} {s' : Store}
    (hh : m'.heap = m.heap) (hc : s'.cells = s.cells) (hg : s'.globals = s.globals)
    (ho : m'.output = s'.output) (hi : m'.nextIdentity = s'.nextIdentity)
    (hk : m'.clock = s'.clock) : Related places m' s' := by
  obtain ⟨heap, current, output, nextIdentity, clock⟩ := m'
  obtain ⟨cells, globals, output', nextIdentity', clock'⟩ := s'
  cases hh
  cases hc
  cases hg
  exact ⟨hr.length, hr.nodup, hr.local_frames, hr.bound, hr.cells, hr.globals,
    hr.global_frame, ho, hi, hk⟩

theorem write (hr : Related places m s) {cell frame : Nat} {name : String}
    (hc : places[cell]? = some (frame, name)) {v : Value} {w : Value Environment}
    (hv : Same m.heap places v w) :
    Related places { m with heap := m.heap.define frame name v } (s.write cell w) := by
  have hg := Heap.Grows.define m.heap frame name v
  have he := Places.Extends.refl 0 places
  obtain ⟨cell_lt, cell_eq⟩ := List.getElem?_eq_some_iff.1 hc
  have mem : (frame, name) ∈ places := cell_eq ▸ List.getElem_mem cell_lt
  obtain ⟨not_global, in_heap⟩ := hr.local_frames _ mem
  refine ⟨?_, hr.nodup, ?_, ?_, ?_, ?_, ?_, hr.output, hr.nextIdentity, hr.clock⟩
  · simpa [Store.write] using hr.length
  · simpa using hr.local_frames
  · intro other key ho hb
    rw [Heap.own?_define] at hb
    split at hb
    · next same => exact same.1 ▸ same.2.2 ▸ mem
    · exact hr.bound other key ho hb
  · intro other f key hp
    rw [Heap.own?_define, Store.content_write]
    obtain ⟨other_lt, other_eq⟩ := List.getElem?_eq_some_iff.1 hp
    by_cases same : cell = other
    · subst same
      rw [hc] at hp
      cases hp
      rw [if_pos ⟨rfl, in_heap, rfl⟩, if_pos ⟨rfl, hr.length ▸ cell_lt⟩]
      exact .some (hv.mono hg he)
    · have elsewhere : ¬ (frame = f ∧ f < m.heap.frames.size ∧ key = name) := by
        rintro ⟨rfl, -, rfl⟩
        exact same ((List.getElem_inj hr.nodup).1 (cell_eq.trans other_eq.symm))
      rw [if_neg elsewhere, if_neg fun c => same c.1]
      exact mono_cells hg he (hr.cells other f key hp)
  · rw [Heap.bindings_define, if_neg fun c => Nat.ne_of_gt not_global c.1]
    exact mono_globals hg he hr.globals
  · simpa using hr.global_frame

theorem defineGlobal (hr : Related places m s) (name : String) {v : Value} {w : Value Environment}
    (hv : Same m.heap places v w) :
    Related places { m with heap := m.heap.define Heap.globalFrame name v }
      (s.defineGlobal name w) := by
  have hg := Heap.Grows.define m.heap Heap.globalFrame name v
  have he := Places.Extends.refl 0 places
  have others {frame : Nat} (hf : frame ≠ Heap.globalFrame) (key : String) :
      (m.heap.define Heap.globalFrame name v).own? frame key = m.heap.own? frame key := by
    rw [Heap.own?_define, if_neg fun c => hf c.1.symm]
  refine ⟨hr.length, hr.nodup, ?_, ?_, ?_, ?_, ?_, hr.output, hr.nextIdentity, hr.clock⟩
  · simpa using hr.local_frames
  · intro frame key hf hb
    rw [others hf] at hb
    exact hr.bound frame key hf hb
  · intro cell frame key hp
    have mem := List.mem_of_getElem? hp
    rw [others (Nat.ne_of_gt (hr.local_frames _ mem).1)]
    exact mono_cells hg he (hr.cells cell frame key hp)
  · rw [Heap.bindings_define, if_pos ⟨rfl, hr.global_frame⟩]
    exact sameBinding_insert (mono_globals hg he hr.globals) name (hv.mono hg he)
  · simpa using hr.global_frame

theorem allocate (hr : Related places m s) {frame : Nat} {name : String}
    (hn : (frame, name) ∉ places) (hz : Heap.globalFrame < frame)
    (hf : frame < m.heap.frames.size) :
    Related (places ++ [(frame, name)]) m { s with cells := s.cells ++ [none] } := by
  have hg := Heap.Grows.refl m.heap
  have he : places.Extends 0 (places ++ [(frame, name)]) := .push name (Nat.zero_le _)
  refine ⟨by simp [hr.length], ?_, ?_, ?_, ?_, mono_globals hg he hr.globals, hr.global_frame,
    hr.output, hr.nextIdentity, hr.clock⟩
  · exact List.nodup_append.2 ⟨hr.nodup, by simp, by rintro a ha b hb rfl; simp_all⟩
  · intro place hp
    rcases List.mem_append.1 hp with hp | hp
    · exact hr.local_frames place hp
    · rw [List.mem_singleton.1 hp]
      exact ⟨hz, hf⟩
  · intro other key ho hb
    exact List.mem_append_left _ (hr.bound other key ho hb)
  · intro cell other key hp
    unfold Store.content
    by_cases old : cell < places.length
    · rw [List.getElem?_append_left old] at hp
      rw [List.getElem?_append_left (hr.length ▸ old)]
      exact mono_cells hg he (hr.cells cell other key hp)
    · have last : cell = places.length := by
        have := (List.getElem?_eq_some_iff.1 hp).1
        simp only [List.length_append, List.length_singleton] at this
        omega
      subst last
      have unbound : m.heap.own? frame name = none := by
        cases ho : m.heap.own? frame name with
        | none => rfl
        | some v => exact absurd (hr.bound frame name (Nat.ne_of_gt hz) (by simp [ho])) hn
      rw [List.getElem?_concat_length] at hp
      cases hp
      rw [unbound, hr.length, List.getElem?_concat_length]
      exact .none

theorem enter (hr : Related places m s) (outer : Nat) : Related places (m.entered outer []) s := by
  have hg := Heap.Grows.push m.heap outer []
  have he := Places.Extends.refl 0 places
  have older {frame : Nat} (hf : frame < m.heap.frames.size) (name : String) :
      (m.heap.push outer []).2.own? frame name = m.heap.own? frame name := by
    rw [Heap.own?_push, if_neg (Nat.ne_of_lt hf)]
  refine ⟨hr.length, hr.nodup, ?_, ?_, ?_, ?_, Nat.lt_of_lt_of_le hr.global_frame hg.size,
    hr.output, hr.nextIdentity, hr.clock⟩
  · intro place hp
    obtain ⟨hz, hf⟩ := hr.local_frames place hp
    exact ⟨hz, Nat.lt_of_lt_of_le hf hg.size⟩
  · intro frame name hf hb
    rw [Machine.entered, Heap.own?_push] at hb
    split at hb
    · cases hb
    · exact hr.bound frame name hf hb
  · intro cell frame name hp
    have mem := List.mem_of_getElem? hp
    rw [Machine.entered, older (hr.local_frames _ mem).2]
    exact mono_cells hg he (hr.cells cell frame name hp)
  · rw [Machine.entered, Heap.bindings_push, if_neg (Nat.ne_of_lt hr.global_frame)]
    exact mono_globals hg he hr.globals

end Related

end Lexical

end Lox
