import LoxLang.Store.Value
import Std.Data.ExtTreeMap

/-! Frames: tables from names to values, each inside an older frame or inside none. Frames are only added, never
removed, so a frame's number is its identity. A value is reached by name, searching outward, or at a distance. -/

namespace LoxLang

abbrev Names := Std.ExtTreeMap String Value

structure Frame where
  names : Names
  outer : Option FrameId

structure Frames where
  all : Array Frame

namespace Frames

def empty : Frames := ⟨#[]⟩

def size (fs : Frames) : Nat := fs.all.size

/-- The frame that the next addition makes. -/
def next (fs : Frames) : FrameId := fs.all.size

def add (fs : Frames) (outer : Option FrameId) (names : Names) : Frames := ⟨fs.all.push ⟨names, outer⟩⟩

def outer? (fs : Frames) (f : FrameId) : Option FrameId := fs.all[f]?.bind Frame.outer

def names (fs : Frames) (f : FrameId) : Names := (fs.all[f]?.map Frame.names).getD ∅

/-- The value of a name in this very frame. -/
def here? (fs : Frames) (f : FrameId) (name : String) : Option Value := fs.all[f]?.bind fun frame => frame.names[name]?

/-- Gives a name a value in this very frame, whether or not it has one. -/
def define (fs : Frames) (f : FrameId) (name : String) (v : Value) : Frames :=
  ⟨fs.all.modify f fun frame => { frame with names := frame.names.insert name v }⟩

/-- Frame `f` and those around it, the innermost first. A frame is older than the frames inside it. -/
def chain (fs : Frames) (f : FrameId) : List FrameId := walk (f + 1) f
where
  walk : Nat → FrameId → List FrameId
    | 0, _ => []
    | n + 1, f => f :: match fs.outer? f with
      | some outer => walk n outer
      | none => []

/-- The frame a number of steps outward. -/
def ancestor? (fs : Frames) (f : FrameId) : Nat → Option FrameId
  | 0 => some f
  | d + 1 => (fs.outer? f).bind fun outer => fs.ancestor? outer d

/-- The nearest frame outward that has the name. -/
def holder? (fs : Frames) (f : FrameId) (name : String) : Option FrameId :=
  (fs.chain f).find? fun g => (fs.here? g name).isSome

def get? (fs : Frames) (f : FrameId) (name : String) : Option Value :=
  (fs.holder? f name).bind fun g => fs.here? g name

def getAt? (fs : Frames) (f : FrameId) (d : Nat) (name : String) : Option Value :=
  (fs.ancestor? f d).bind fun g => fs.here? g name

/-- Overwrites the nearest value of a name; tells whether there is one. -/
def assign (fs : Frames) (f : FrameId) (name : String) (v : Value) : Bool × Frames :=
  match fs.holder? f name with
  | some g => (true, fs.define g name v)
  | none => (false, fs)

/-- Overwrites the value of a name at a distance; tells whether that frame has the name. -/
def assignAt (fs : Frames) (f : FrameId) (d : Nat) (name : String) (v : Value) : Bool × Frames :=
  match fs.ancestor? f d with
  | some g => if (fs.here? g name).isSome then (true, fs.define g name v) else (false, fs)
  | none => (false, fs)

theorem here?_define_self {fs : Frames} {f : FrameId} (h : f < fs.size) (name : String) (v : Value) :
    (fs.define f name v).here? f name = some v := by
  simp only [here?, define, Array.getElem?_modify, if_true]
  rw [Array.getElem?_eq_getElem h]
  simp

theorem here?_define_of_ne (fs : Frames) {f g : FrameId} {name other : String} (v : Value)
    (h : g ≠ f ∨ other ≠ name) : (fs.define f name v).here? g other = fs.here? g other := by
  simp only [here?, define, Array.getElem?_modify]
  split
  · rename_i hfg
    subst hfg
    have hne : name ≠ other := fun e => (h.elim (fun x => x rfl) fun x => x e.symm)
    cases fs.all[f]? with
    | none => simp
    | some frame => simp [Std.ExtTreeMap.getElem?_insert, hne]
  · rfl

theorem outer?_define (fs : Frames) (f g : FrameId) (name : String) (v : Value) :
    (fs.define f name v).outer? g = fs.outer? g := by
  simp only [outer?, define, Array.getElem?_modify]
  split
  · cases fs.all[g]? <;> simp
  · rfl

end Frames

end LoxLang
