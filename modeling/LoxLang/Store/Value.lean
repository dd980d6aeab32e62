import LoxLang.Tree.Basic

/-! Values. Functions, classes and instances are held by their place in the store, which is their identity. -/

namespace LoxLang

abbrev FrameId := Nat
abbrev NativeId := Nat
abbrev ClosureId := Nat
abbrev ClassId := Nat
abbrev ObjectId := Nat

inductive Value
  | nil
  | bool (value : Bool)
  | number (value : Number)
  | string (text : String)
  | native (id : NativeId)
  | function (id : ClosureId)
  | cls (id : ClassId)
  | object (id : ObjectId)
deriving DecidableEq, Inhabited, Repr

def Literal.value : Literal → Value
  | nil => .nil
  | bool value => .bool value
  | number value => .number value
  | string text => .string text

namespace Value

/-- All values count as true but `nil` and `false`. -/
def truthy : Value → Bool
  | nil => false
  | bool value => value
  | _ => true

/-- Equality as a program sees it: numbers by value, all else by content or identity. -/
def same : Value → Value → Bool
  | number a, number b => a.same b
  | a, b => a == b

end Value

end LoxLang
