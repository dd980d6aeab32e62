import LoxLang.Proofs.Binding.Layout

/-! Code with all its node ids moved up by the same number. It uses the same names in the same places, so all that is
said of it elsewhere is said of the code itself, but for the ids. -/

namespace LoxLang

mutual

def Expr.shift (n : Nat) : Expr → Expr
  | .literal value => .literal value
  | .grouping inner => .grouping (inner.shift n)
  | .unary operator operand => .unary operator (operand.shift n)
  | .binary left operator right => .binary (left.shift n) operator (right.shift n)
  | .logical left operator right => .logical (left.shift n) operator (right.shift n)
  | .read id name => .read (id + n) name
  | .assign id name value => .assign (id + n) name (value.shift n)
  | .call callee paren arguments => .call (callee.shift n) paren (Expr.shiftEach n arguments)
  | .get object name => .get (object.shift n) name
  | .set object name value => .set (object.shift n) name (value.shift n)
  | .self id keyword => .self (id + n) keyword
  | .inherited id keyword method => .inherited (id + n) keyword method

def Expr.shiftEach (n : Nat) : List Expr → List Expr
  | [] => []
  | e :: rest => e.shift n :: Expr.shiftEach n rest

end

def NameUse.shift (n : Nat) (u : NameUse) : NameUse := ⟨u.id + n, u.name⟩

mutual

def Stmt.shift (n : Nat) : Stmt → Stmt
  | .expression e => .expression (e.shift n)
  | .print e => .print (e.shift n)
  | .var name initial => .var name (initial.map (Expr.shift n))
  | .block body => .block (Stmt.shiftEach n body)
  | .branch condition yes no => .branch (condition.shift n) (yes.shift n) (Stmt.shiftOption n no)
  | .loop condition body => .loop (condition.shift n) (body.shift n)
  | .function f => .function (f.shift n)
  | .ret keyword value => .ret keyword (value.map (Expr.shift n))
  | .classDecl name superclass methods =>
    .classDecl name (superclass.map (NameUse.shift n)) (Function.shiftEach n methods)

def Stmt.shiftEach (n : Nat) : List Stmt → List Stmt
  | [] => []
  | s :: rest => s.shift n :: Stmt.shiftEach n rest

def Stmt.shiftOption (n : Nat) : Option Stmt → Option Stmt
  | none => none
  | some s => some (s.shift n)

def Function.shift (n : Nat) : Function → Function
  | .mk name parameters body => .mk name parameters (Stmt.shiftEach n body)

def Function.shiftEach (n : Nat) : List Function → List Function
  | [] => []
  | f :: rest => f.shift n :: Function.shiftEach n rest

end

def Use.shift (n : Nat) (u : Use) : Use := { u with id := u.id + n }

section Zero

mutual

@[simp] theorem Expr.shift_zero : ∀ e : Expr, e.shift 0 = e
  | .literal _ | .read _ _ | .self _ _ | .inherited _ _ _ => rfl
  | .grouping e | .unary _ e | .get e _ | .assign _ _ e => by simp only [Expr.shift, e.shift_zero, Nat.add_zero]
  | .binary e _ e' | .logical e _ e' | .set e _ e' => by simp only [Expr.shift, e.shift_zero, e'.shift_zero]
  | .call callee _ arguments => by simp only [Expr.shift, callee.shift_zero, Expr.shiftEach_zero arguments]

@[simp] theorem Expr.shiftEach_zero : ∀ es : List Expr, Expr.shiftEach 0 es = es
  | [] => rfl
  | e :: rest => by rw [Expr.shiftEach, e.shift_zero, Expr.shiftEach_zero rest]

end

mutual

@[simp] theorem Stmt.shift_zero : ∀ s : Stmt, s.shift 0 = s
  | .expression e | .print e => by simp only [Stmt.shift, e.shift_zero]
  | .var _ none | .ret _ none => rfl
  | .var _ (some e) | .ret _ (some e) => by simp only [Stmt.shift, Option.map_some, e.shift_zero]
  | .block body => by rw [Stmt.shift, Stmt.shiftEach_zero body]
  | .branch condition yes no => by rw [Stmt.shift, condition.shift_zero, yes.shift_zero, Stmt.shiftOption_zero no]
  | .loop condition body => by rw [Stmt.shift, condition.shift_zero, body.shift_zero]
  | .function f => by rw [Stmt.shift, f.shift_zero]
  | .classDecl _ none methods => by rw [Stmt.shift, Function.shiftEach_zero methods, Option.map_none]
  | .classDecl _ (some u) methods => by
    rw [Stmt.shift, Function.shiftEach_zero methods, Option.map_some, NameUse.shift, Nat.add_zero]

@[simp] theorem Stmt.shiftEach_zero : ∀ body : List Stmt, Stmt.shiftEach 0 body = body
  | [] => rfl
  | s :: rest => by rw [Stmt.shiftEach, s.shift_zero, Stmt.shiftEach_zero rest]

@[simp] theorem Stmt.shiftOption_zero : ∀ s : Option Stmt, Stmt.shiftOption 0 s = s
  | none => rfl
  | some s => by rw [Stmt.shiftOption, s.shift_zero]

@[simp] theorem Function.shift_zero : ∀ f : Function, f.shift 0 = f
  | .mk _ _ body => by rw [Function.shift, Stmt.shiftEach_zero body]

@[simp] theorem Function.shiftEach_zero : ∀ fs : List Function, Function.shiftEach 0 fs = fs
  | [] => rfl
  | f :: rest => by rw [Function.shiftEach, f.shift_zero, Function.shiftEach_zero rest]

end

end Zero

section Uses

variable (n : Nat)

mutual

theorem Expr.uses_shift : ∀ e : Expr, (e.shift n).uses = e.uses.map (Use.shift n)
  | .literal _ | .read _ _ | .self _ _ | .inherited _ _ _ => rfl
  | .grouping e | .unary _ e | .get e _ => e.uses_shift
  | .assign _ _ e => by rw [Expr.shift, Expr.uses, Expr.uses, List.map_cons, e.uses_shift, Use.shift]
  | .binary e _ e' | .logical e _ e' | .set e _ e' => by
    rw [Expr.shift, Expr.uses, Expr.uses, List.map_append, e.uses_shift, e'.uses_shift]
  | .call callee _ arguments => by
    rw [Expr.shift, Expr.uses, Expr.uses, List.map_append, callee.uses_shift, Expr.usesEach_shiftEach arguments]

theorem Expr.usesEach_shiftEach : ∀ es : List Expr,
    Expr.usesEach (Expr.shiftEach n es) = (Expr.usesEach es).map (Use.shift n)
  | [] => rfl
  | e :: rest => by
    rw [Expr.shiftEach, Expr.usesEach, Expr.usesEach, List.map_append, e.uses_shift, Expr.usesEach_shiftEach rest]

end

theorem Expr.usesOption_shift (e : Option Expr) :
    Expr.usesOption (e.map (Expr.shift n)) = (Expr.usesOption e).map (Use.shift n) := by
  cases e with
  | none => rfl
  | some e => exact e.uses_shift n

mutual

theorem Stmt.uses_shift : ∀ s : Stmt, (s.shift n).uses = s.uses.map (Use.shift n)
  | .expression e | .print e => e.uses_shift n
  | .var _ e | .ret _ e => Expr.usesOption_shift n e
  | .block body => Stmt.usesEach_shiftEach body
  | .branch condition yes no => by
    rw [Stmt.shift, Stmt.uses, Stmt.uses, List.map_append, List.map_append, condition.uses_shift, yes.uses_shift,
      Stmt.usesOption_shift no]
  | .loop condition body => by
    rw [Stmt.shift, Stmt.uses, Stmt.uses, List.map_append, condition.uses_shift, body.uses_shift]
  | .function f => f.uses_shift
  | .classDecl _ none methods => Function.usesEach_shiftEach methods
  | .classDecl _ (some _) methods => congrArg (_ :: ·) (Function.usesEach_shiftEach methods)

theorem Stmt.usesEach_shiftEach : ∀ body : List Stmt,
    Stmt.usesEach (Stmt.shiftEach n body) = (Stmt.usesEach body).map (Use.shift n)
  | [] => rfl
  | s :: rest => by
    rw [Stmt.shiftEach, Stmt.usesEach, Stmt.usesEach, List.map_append, s.uses_shift, Stmt.usesEach_shiftEach rest]

theorem Stmt.usesOption_shift : ∀ s : Option Stmt,
    Stmt.usesOption (Stmt.shiftOption n s) = (Stmt.usesOption s).map (Use.shift n)
  | none => rfl
  | some s => s.uses_shift

theorem Function.uses_shift : ∀ f : Function, (f.shift n).uses = f.uses.map (Use.shift n)
  | .mk _ _ body => Stmt.usesEach_shiftEach body

theorem Function.usesEach_shiftEach : ∀ fs : List Function,
    Function.usesEach (Function.shiftEach n fs) = (Function.usesEach fs).map (Use.shift n)
  | [] => rfl
  | f :: rest => by
    rw [Function.shiftEach, Function.usesEach, Function.usesEach, List.map_append, f.uses_shift,
      Function.usesEach_shiftEach rest]

end

@[simp] theorem Stmt.declares_shift (s : Stmt) : (s.shift n).declares = s.declares := by
  cases s with
  | function f =>
    cases f
    rfl
  | _ => rfl

mutual

theorem Stmt.Tidy.shift : ∀ {s : Stmt}, s.Tidy → (s.shift n).Tidy
  | .expression _, h | .print _, h | .ret _ _, h | .var _ _, h => h
  | .block _, h => Stmt.TidyEach.shift h
  | .branch _ yes _, h => ⟨h.1.shift, (yes.declares_shift n).trans h.2.1, Stmt.TidyOption.shift h.2.2⟩
  | .loop _ body, h => ⟨h.1.shift, (body.declares_shift n).trans h.2⟩
  | .function (.mk _ _ _), h => ⟨h.1, h.2.1, Stmt.TidyEach.shift h.2.2⟩
  | .classDecl _ _ _, h => ⟨h.1, Function.TidyEach.shift h.2⟩

theorem Stmt.TidyEach.shift : ∀ {body : List Stmt}, Stmt.TidyEach body → Stmt.TidyEach (Stmt.shiftEach n body)
  | [], _ => trivial
  | _ :: _, h => ⟨h.1.shift, Stmt.TidyEach.shift h.2⟩

theorem Stmt.TidyOption.shift : ∀ {s : Option Stmt}, Stmt.TidyOption s → Stmt.TidyOption (Stmt.shiftOption n s)
  | none, _ => trivial
  | some s, h => ⟨h.1.shift, (s.declares_shift n).trans h.2⟩

theorem Function.TidyEach.shift : ∀ {fs : List Function}, Function.TidyEach fs → Function.TidyEach (Function.shiftEach n fs)
  | [], _ => trivial
  | .mk _ _ _ :: _, h => ⟨⟨h.1.1, Stmt.TidyEach.shift h.1.2⟩, Function.TidyEach.shift h.2⟩

end

end Uses

end LoxLang
