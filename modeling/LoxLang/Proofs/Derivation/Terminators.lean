import LoxLang.Proofs.Derivation.Complete
import LoxLang.Proofs.Derivation.Statement

/-! Derivations that differ in their terminators only. They have the same trees, and the tokens of the one come from those
of the other piece by piece. A derivation is clear of what stands behind it if a missing semicolon is not mistaken for
something else. -/

namespace LoxLang

section Map

variable {l l' : Bool}

/-- The derivation with other terminators. -/
def VariableDerivation.map (f : Terminator l → Terminator l') (v : VariableDerivation l) : VariableDerivation l' :=
  ⟨v.keyword, v.name, v.initial, f v.ending⟩

def FirstClause.map (f : Terminator l → Terminator l') : FirstClause l → FirstClause l'
  | none semicolon => .none semicolon
  | var v => .var (v.map f)
  | expression e ending => .expression e (f ending)

mutual

def StatementDerivation.map (f : Terminator l → Terminator l') :
    {hangs : Bool} → StatementDerivation l hangs → StatementDerivation l' hangs
  | _, .expression e ending => .expression e (f ending)
  | _, .print keyword e ending => .print keyword e (f ending)
  | _, .ret keyword value ending => .ret keyword value (f ending)
  | _, .block opening body closing => .block opening (body.map f) closing
  | _, .branch keyword opening condition closing yes => .branch keyword opening condition closing (yes.map f)
  | _, .branchElse keyword opening condition closing yes otherwise no =>
    .branchElse keyword opening condition closing (yes.map f) otherwise (no.map f)
  | _, .loop keyword opening condition closing body => .loop keyword opening condition closing (body.map f)
  | _, .counting keyword opening first condition semicolon increment closing body =>
    .counting keyword opening (first.map f) condition semicolon increment closing (body.map f)

def DeclarationDerivation.map (f : Terminator l → Terminator l') : DeclarationDerivation l → DeclarationDerivation l'
  | .classDecl keyword name superclass opening methods closing =>
    .classDecl keyword name superclass opening (methods.map f) closing
  | .function keyword g => .function keyword (g.map f)
  | .var v => .var (v.map f)
  | .statement s => .statement (s.map f)

def DeclarationsDerivation.map (f : Terminator l → Terminator l') :
    DeclarationsDerivation l → DeclarationsDerivation l'
  | .nil => .nil
  | .cons first more => .cons (first.map f) (more.map f)

def FunctionDerivation.map (f : Terminator l → Terminator l') : FunctionDerivation l → FunctionDerivation l'
  | .mk name opening parameters closing openingBrace body closingBrace =>
    .mk name opening parameters closing openingBrace (body.map f) closingBrace

def MethodsDerivation.map (f : Terminator l → Terminator l') : MethodsDerivation l → MethodsDerivation l'
  | .nil => .nil
  | .cons first more => .cons (first.map f) (more.map f)

end

variable {f : Terminator l → Terminator l'}

theorem FirstClause.tree_map (condition increment : Option Expr) (body : Stmt) (d : FirstClause l) :
    (d.map f).tree condition increment body = d.tree condition increment body := by
  cases d <;> rfl

mutual

theorem StatementDerivation.tree_map : ∀ {hangs : Bool} (d : StatementDerivation l hangs), (d.map f).tree = d.tree
  | _, .expression .. | _, .print .. | _, .ret .. => rfl
  | _, .block _ body _ => congrArg Stmt.block body.trees_map
  | _, .branch _ _ condition _ yes => congrArg (Stmt.branch condition.tree · none) yes.tree_map
  | _, .branchElse _ _ condition _ yes _ no =>
    congrArg₂ (fun s s' => Stmt.branch condition.tree s (some s')) yes.tree_map no.tree_map
  | _, .loop _ _ condition _ body => congrArg (Stmt.loop condition.tree) body.tree_map
  | _, .counting _ _ first _ _ _ _ body =>
    (first.tree_map _ _ _).trans (congrArg (first.tree _ _ ·) body.tree_map)

theorem DeclarationDerivation.tree_map : ∀ d : DeclarationDerivation l, (d.map f).tree = d.tree
  | .classDecl _ name superclass _ methods _ => congrArg (Stmt.classDecl name.1 superclass.tree) methods.trees_map
  | .function _ g => congrArg Stmt.function g.tree_map
  | .var _ => rfl
  | .statement s => s.tree_map

theorem DeclarationsDerivation.trees_map : ∀ d : DeclarationsDerivation l, (d.map f).trees = d.trees
  | .nil => rfl
  | .cons first more => congrArg₂ List.cons first.tree_map more.trees_map

theorem FunctionDerivation.tree_map : ∀ d : FunctionDerivation l, (d.map f).tree = d.tree
  | .mk name _ parameters _ _ body _ => congrArg (Function.mk name.1 parameters.names) body.trees_map

theorem MethodsDerivation.trees_map : ∀ d : MethodsDerivation l, (d.map f).trees = d.trees
  | .nil => rfl
  | .cons first more => congrArg₂ List.cons first.tree_map more.trees_map

end

end Map

/-- A relation that holds of joined lists if it holds of their parts. -/
structure Piecewise (R : List Token → List Token → Prop) : Prop where
  refl : ∀ ts, R ts ts
  append : ∀ {ts us ts' us'}, R ts us → R ts' us' → R (ts ++ ts') (us ++ us')

section Tokens

variable {l l' : Bool} {R : List Token → List Token → Prop} {f : Terminator l → Terminator l'}

theorem Piecewise.eq : Piecewise Eq := ⟨fun _ => rfl, fun h h' => by rw [h, h']⟩

theorem Piecewise.cons (hR : Piecewise R) (t : Token) {ts us : List Token} (h : R ts us) : R (t :: ts) (t :: us) :=
  hR.append (hR.refl [t]) h

theorem Piecewise.prefixed (hR : Piecewise R) (ts : List Token) {us us' : List Token} (h : R us us') :
    R (ts ++ us) (ts ++ us') := hR.append (hR.refl ts) h

theorem Piecewise.suffixed (hR : Piecewise R) {ts ts' : List Token} (us : List Token) (h : R ts ts') :
    R (ts ++ us) (ts' ++ us) := hR.append h (hR.refl us)

theorem VariableDerivation.tokens_map (hR : Piecewise R) (hf : ∀ t, R t.tokens (f t).tokens)
    (v : VariableDerivation l) : R v.tokens (v.map f).tokens :=
  hR.cons _ (hR.cons _ (hR.prefixed _ (hf v.ending)))

theorem FirstClause.tokens_map (hR : Piecewise R) (hf : ∀ t, R t.tokens (f t).tokens) :
    ∀ d : FirstClause l, R d.tokens (d.map f).tokens
  | none _ => hR.refl _
  | var v => v.tokens_map hR hf
  | expression _ ending => hR.prefixed _ (hf ending)

mutual

theorem StatementDerivation.tokens_map (hR : Piecewise R) (hf : ∀ t, R t.tokens (f t).tokens) :
    ∀ {hangs : Bool} (d : StatementDerivation l hangs), R d.tokens (d.map f).tokens
  | _, .expression _ ending => hR.prefixed _ (hf ending)
  | _, .print _ _ ending => hR.cons _ (hR.prefixed _ (hf ending))
  | _, .ret _ _ ending => hR.cons _ (hR.prefixed _ (hf ending))
  | _, .block _ body _ => hR.cons _ (hR.suffixed _ (body.tokens_map hR hf))
  | _, .branch _ _ _ _ yes => hR.cons _ (hR.cons _ (hR.prefixed _ (hR.cons _ (yes.tokens_map hR hf))))
  | _, .branchElse _ _ _ _ yes _ no =>
    hR.cons _ (hR.cons _ (hR.prefixed _ (hR.cons _
      (hR.append (yes.tokens_map hR hf) (hR.cons _ (no.tokens_map hR hf))))))
  | _, .loop _ _ _ _ body => hR.cons _ (hR.cons _ (hR.prefixed _ (hR.cons _ (body.tokens_map hR hf))))
  | _, .counting _ _ first _ _ _ _ body =>
    hR.cons _ (hR.cons _ (hR.append (first.tokens_map hR hf) (hR.prefixed _ (hR.cons _
      (hR.prefixed _ (hR.cons _ (body.tokens_map hR hf)))))))

theorem DeclarationDerivation.tokens_map (hR : Piecewise R) (hf : ∀ t, R t.tokens (f t).tokens) :
    ∀ d : DeclarationDerivation l, R d.tokens (d.map f).tokens
  | .classDecl _ _ _ _ methods _ =>
    hR.cons _ (hR.cons _ (hR.prefixed _ (hR.cons _ (hR.suffixed _ (methods.tokens_map hR hf)))))
  | .function _ g => hR.cons _ (g.tokens_map hR hf)
  | .var v => v.tokens_map hR hf
  | .statement s => s.tokens_map hR hf

theorem DeclarationsDerivation.tokens_map (hR : Piecewise R) (hf : ∀ t, R t.tokens (f t).tokens) :
    ∀ d : DeclarationsDerivation l, R d.tokens (d.map f).tokens
  | .nil => hR.refl _
  | .cons first more => hR.append (first.tokens_map hR hf) (more.tokens_map hR hf)

theorem FunctionDerivation.tokens_map (hR : Piecewise R) (hf : ∀ t, R t.tokens (f t).tokens) :
    ∀ d : FunctionDerivation l, R d.tokens (d.map f).tokens
  | .mk _ _ _ _ _ body _ =>
    hR.cons _ (hR.cons _ (hR.prefixed _ (hR.cons _ (hR.cons _ (hR.suffixed _ (body.tokens_map hR hf))))))

theorem MethodsDerivation.tokens_map (hR : Piecewise R) (hf : ∀ t, R t.tokens (f t).tokens) :
    ∀ d : MethodsDerivation l, R d.tokens (d.map f).tokens
  | .nil => hR.refl _
  | .cons first more => hR.append (first.tokens_map hR hf) (more.tokens_map hR hf)

end

end Tokens

section Clear

variable {l l' : Bool}

/-- Behind a missing semicolon stands neither a semicolon nor what carries an expression on. -/
def Terminator.Clear (tail : List Token) : Terminator l → Prop
  | .written _ => True
  | .missing _ => Symbol.expression.EndsBefore tail ∧ ∀ t ∈ tail.head?, t.kind ≠ .semicolon

def FirstClause.Clear (tail : List Token) : FirstClause l → Prop
  | none _ => True
  | var v => v.ending.Clear tail
  | expression _ ending => ending.Clear tail

mutual

/-- Each terminator is clear of what stands behind it, where `tail` stands behind the whole. A `return` with neither a
value nor a semicolon stands at the very end. -/
def StatementDerivation.Clear (tail : List Token) : {hangs : Bool} → StatementDerivation l hangs → Prop
  | _, .expression _ ending => ending.Clear tail
  | _, .print _ _ ending => ending.Clear tail
  | _, .ret _ value ending => ending.Clear tail ∧ (value = none → ending.tokens = [] → tail = [])
  | _, .block _ body closing => body.Clear (closing.1 :: tail)
  | _, .branch _ _ _ _ yes => yes.Clear tail
  | _, .branchElse _ _ _ _ yes otherwise no => yes.Clear (otherwise.1 :: (no.tokens ++ tail)) ∧ no.Clear tail
  | _, .loop _ _ _ _ body => body.Clear tail
  | _, .counting _ _ first condition semicolon increment closing body =>
    first.Clear (Derivation.tokensOption condition ++
      semicolon.1 :: (Derivation.tokensOption increment ++ closing.1 :: (body.tokens ++ tail))) ∧ body.Clear tail

def DeclarationDerivation.Clear (tail : List Token) : DeclarationDerivation l → Prop
  | .classDecl _ _ _ _ methods closing => methods.Clear (closing.1 :: tail)
  | .function _ f => f.Clear tail
  | .var v => v.ending.Clear tail
  | .statement s => s.Clear tail

def DeclarationsDerivation.Clear (tail : List Token) : DeclarationsDerivation l → Prop
  | .nil => True
  | .cons first more => first.Clear (more.tokens ++ tail) ∧ more.Clear tail

def FunctionDerivation.Clear (tail : List Token) : FunctionDerivation l → Prop
  | .mk _ _ _ _ _ body closingBrace => body.Clear (closingBrace.1 :: tail)

def MethodsDerivation.Clear (tail : List Token) : MethodsDerivation l → Prop
  | .nil => True
  | .cons first more => first.Clear (more.tokens ++ tail) ∧ more.Clear tail

end

variable {f : Terminator l → Terminator l'} {tail : List Token}

theorem Terminator.clear_of_tokens {d : Terminator l} (h : d.tokens ≠ []) : d.Clear tail := by
  cases d with
  | written t => trivial
  | missing hl => exact absurd rfl h

theorem FirstClause.clear_map (hf : ∀ t, (f t).tokens ≠ []) : ∀ d : FirstClause l, (d.map f).Clear tail
  | none _ => trivial
  | var v => (f v.ending).clear_of_tokens (hf _)
  | expression _ ending => (f ending).clear_of_tokens (hf _)

mutual

/-- With all its terminators written, a derivation is clear of anything. -/
theorem StatementDerivation.clear_map (hf : ∀ t, (f t).tokens ≠ []) :
    ∀ {hangs : Bool} {tail : List Token} (d : StatementDerivation l hangs), (d.map f).Clear tail
  | _, _, .expression _ ending | _, _, .print _ _ ending => (f ending).clear_of_tokens (hf _)
  | _, _, .ret _ _ ending => ⟨(f ending).clear_of_tokens (hf _), fun _ h => absurd h (hf _)⟩
  | _, _, .block _ body _ => body.clear_map hf
  | _, _, .branch _ _ _ _ yes => yes.clear_map hf
  | _, _, .branchElse _ _ _ _ yes _ no => ⟨yes.clear_map hf, no.clear_map hf⟩
  | _, _, .loop _ _ _ _ body => body.clear_map hf
  | _, _, .counting _ _ first _ _ _ _ body => ⟨first.clear_map hf, body.clear_map hf⟩

theorem DeclarationDerivation.clear_map (hf : ∀ t, (f t).tokens ≠ []) :
    ∀ {tail : List Token} (d : DeclarationDerivation l), (d.map f).Clear tail
  | _, .classDecl _ _ _ _ methods _ => methods.clear_map hf
  | _, .function _ g => g.clear_map hf
  | _, .var v => (f v.ending).clear_of_tokens (hf _)
  | _, .statement s => s.clear_map hf

theorem DeclarationsDerivation.clear_map (hf : ∀ t, (f t).tokens ≠ []) :
    ∀ {tail : List Token} (d : DeclarationsDerivation l), (d.map f).Clear tail
  | _, .nil => trivial
  | _, .cons first more => ⟨first.clear_map hf, more.clear_map hf⟩

theorem FunctionDerivation.clear_map (hf : ∀ t, (f t).tokens ≠ []) :
    ∀ {tail : List Token} (d : FunctionDerivation l), (d.map f).Clear tail
  | _, .mk _ _ _ _ _ body _ => body.clear_map hf

theorem MethodsDerivation.clear_map (hf : ∀ t, (f t).tokens ≠ []) :
    ∀ {tail : List Token} (d : MethodsDerivation l), (d.map f).Clear tail
  | _, .nil => trivial
  | _, .cons first more => ⟨first.clear_map hf, more.clear_map hf⟩

end

end Clear

end LoxLang
