import LoxLang.Store.Frames

/-! The heap: functions, classes and instances, which values name by number. A class is newer than its superclass.
What a function keeps of the place of its declaration is a parameter. -/

namespace LoxLang

/-- A function of the host. It sees how values are written, and nothing else of the store. -/
structure Native where
  name : String
  arity : Nat
  apply : (Value → String) → List Value → Value

/-- A declared function with the place it was declared at. -/
structure Closure (ε : Type) where
  declared : Function
  home : ε
  /-- A call yields the instance it is bound to. -/
  isInitializer : Bool

variable {ε : Type}

def Closure.arity (k : Closure ε) : Nat := k.declared.parameters.length

/-- The methods by name. None of them is a value until it is bound to an instance. -/
abbrev Methods (ε : Type) := Std.ExtTreeMap String (Closure ε)

/-- The functions of a class body by name, the last of one name counting. -/
def Methods.ofList (home : ε) (methods : List Function) : Methods ε :=
  methods.foldl (fun table f => table.insert f.name.lexeme ⟨f, home, f.name.lexeme == initializerName⟩) ∅

structure ClassDef (ε : Type) where
  name : String
  superclass : Option ClassId
  methods : Methods ε

structure Object where
  cls : ClassId
  fields : Names

structure Heap (ε : Type) where
  natives : Array Native
  closures : Array (Closure ε)
  classes : Array (ClassDef ε)
  objects : Array Object

namespace Heap

def empty : Heap ε := ⟨#[], #[], #[], #[]⟩

def className (h : Heap ε) (c : ClassId) : String := (h.classes[c]?.map ClassDef.name).getD ""

/-- What printing a value writes. -/
def display (h : Heap ε) : Value → String
  | .nil => "nil"
  | .bool true => "true"
  | .bool false => "false"
  | .number value => value.display
  | .string text => text
  | .native id => "<native fn " ++ (h.natives[id]?.map Native.name).getD "" ++ ">"
  | .function id => "<fn " ++ (h.closures[id]?.map fun k => k.declared.name.lexeme).getD "" ++ ">"
  | .cls id => h.className id
  | .object id => (h.objects[id]?.map fun o => h.className o.cls).getD "" ++ " instance"

/-- The method of the nearest class that declares the name, from a class up its superclasses. -/
def method? (h : Heap ε) (c : ClassId) (name : String) : Option (Closure ε) := search (c + 1) c
where
  search : Nat → ClassId → Option (Closure ε)
    | 0, _ => none
    | n + 1, c => h.classes[c]?.bind fun cls => match cls.methods[name]? with
      | some method => some method
      | none => cls.superclass.bind (search n)

def initializer? (h : Heap ε) (c : ClassId) : Option (Closure ε) := h.method? c initializerName

/-- How many arguments a call takes, if the value can be called. -/
def arity? (h : Heap ε) : Value → Option Nat
  | .native id => h.natives[id]?.map Native.arity
  | .function id => h.closures[id]?.map Closure.arity
  | .cls id => some (((h.initializer? id).map Closure.arity).getD 0)
  | _ => none

def addNative (h : Heap ε) (f : Native) : NativeId × Heap ε :=
  (h.natives.size, { h with natives := h.natives.push f })

def addClosure (h : Heap ε) (k : Closure ε) : ClosureId × Heap ε :=
  (h.closures.size, { h with closures := h.closures.push k })

def addClass (h : Heap ε) (c : ClassDef ε) : ClassId × Heap ε :=
  (h.classes.size, { h with classes := h.classes.push c })

def addObject (h : Heap ε) (c : ClassId) : ObjectId × Heap ε :=
  (h.objects.size, { h with objects := h.objects.push ⟨c, ∅⟩ })

def field? (h : Heap ε) (o : ObjectId) (name : String) : Option Value :=
  h.objects[o]?.bind fun object => object.fields[name]?

def setField (h : Heap ε) (o : ObjectId) (name : String) (v : Value) : Heap ε :=
  { h with objects := h.objects.modify o fun object => { object with fields := object.fields.insert name v } }

end Heap

end LoxLang
