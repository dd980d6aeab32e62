import LoxLang.Binding.Walk

/-! The walk over expressions and statements, and the distances of a whole program. -/

namespace LoxLang

mutual

def Expr.resolve (around : Surroundings) : Expr → Walk → Walk
  | .literal _, w => w
  | .grouping inner, w => inner.resolve around w
  | .unary _ operand, w => operand.resolve around w
  | .binary left _ right, w | .logical left _ right, w => right.resolve around (left.resolve around w)
  | .read id name, w => w.read id name
  | .assign id name value, w => (value.resolve around w).use id name.lexeme
  | .call callee _ arguments, w => Expr.resolveEach around arguments (callee.resolve around w)
  | .get object _, w => object.resolve around w
  | .set object _ value, w => object.resolve around (value.resolve around w)
  | .self id keyword, w => w.self around id keyword
  | .inherited id keyword _, w => w.inherited around id keyword

def Expr.resolveEach (around : Surroundings) : List Expr → Walk → Walk
  | [], w => w
  | e :: rest, w => Expr.resolveEach around rest (e.resolve around w)

end

def Expr.resolveOption (around : Surroundings) : Option Expr → Walk → Walk
  | none, w => w
  | some e, w => e.resolve around w

/-- The kind of a method: the initializer of a class is told by its name. -/
def FunctionKind.ofMethod (f : Function) : FunctionKind :=
  if f.name.lexeme = initializerName then .initializer else .method

/-- Walks the superclass clause of a class. -/
def NameUse.resolveSuperclass (superclass : NameUse) (cls : Token) (w : Walk) : Walk :=
  let w := if superclass.name.lexeme = cls.lexeme then w.fault superclass.name .inheritsFromItself else w
  w.read superclass.id superclass.name

mutual

def Stmt.resolve (around : Surroundings) : Stmt → Walk → Walk
  | .expression e, w | .print e, w => e.resolve around w
  | .var name initial, w => (Expr.resolveOption around initial (w.declare name)).define name
  | .block body, w => w.inScope [] (Stmt.resolveEach around body)
  | .branch condition yes no, w => Stmt.resolveOption around no (yes.resolve around (condition.resolve around w))
  | .loop condition body, w => body.resolve around (condition.resolve around w)
  | .function f, w => f.resolve .function around ((w.declare f.name).define f.name)
  | .ret keyword value, w => Expr.resolveOption around value (w.ret around keyword value.isSome)
  | .classDecl name superclass methods, w =>
    let w := (w.declare name).define name
    match superclass with
    | none => w.inScope ["this"] (Function.resolveMethods ⟨around.function, .base⟩ methods)
    | some superclass =>
      (superclass.resolveSuperclass name w).inScope ["super"] fun w =>
        w.inScope ["this"] (Function.resolveMethods ⟨around.function, .derived⟩ methods)

def Stmt.resolveEach (around : Surroundings) : List Stmt → Walk → Walk
  | [], w => w
  | s :: rest, w => Stmt.resolveEach around rest (s.resolve around w)

def Stmt.resolveOption (around : Surroundings) : Option Stmt → Walk → Walk
  | none, w => w
  | some s, w => s.resolve around w

/-- Parameters and body share one scope. -/
def Function.resolve (kind : FunctionKind) (around : Surroundings) : Function → Walk → Walk
  | .mk _ parameters body, w =>
    w.inScope [] fun w =>
      Stmt.resolveEach ⟨kind, around.cls⟩ body (parameters.foldl (fun w t => (w.declare t).define t) w)

def Function.resolveMethods (around : Surroundings) : List Function → Walk → Walk
  | [], w => w
  | f :: rest, w => Function.resolveMethods around rest (f.resolve (.ofMethod f) around w)

end

/-- The distances in a program, given the names that are global already, or all its faults. -/
def resolve (globals : Std.ExtTreeSet String) (statements : List Stmt) : Except (List Diagnostic) Bindings :=
  let w := Stmt.resolveEach .topLevel statements (.start globals)
  if w.faults.isEmpty then .ok w.bindings else .error w.faults

end LoxLang
