import LoxLang.Proofs.Domain.Trees
import LoxLang.Proofs.Relabeling.Trees
import LoxLang.Proofs.Rendering.Leaves
import LoxLang.Proofs.Rendering.Nested
import LoxLang.Proofs.Rendering.Numbers
import LoxLang.Proofs.Tiling.Spacing

/-! A tree that was read can be told from its text. Each word of the text is read as a token again, and each list as a node;
only node ids and lines are lost. -/

namespace LoxLang

open Kind

/-- All node ids and lines set to zero. -/
def Relabeling.blank : Relabeling := ⟨fun _ => 0, fun _ => 0⟩

section Words

theorem Lexeme.ne_nil {kind : Kind} {text : List Char} (h : Lexeme kind text) : text ≠ [] := by
  cases h with
  | symbol hmem => exact Piece.symbols_ne_nil _ hmem
  | word | integer | decimal | string => simp

theorem not_delimiter {passes : Char → Bool} (hpasses : delimiters.any passes = false) {c : Char}
    (h : passes c = true) : c ∉ delimiters := fun hc => List.any_eq_false.mp hpasses c hc h

theorem word_of_any {text : List Char} (hne : text ≠ []) (hany : text.any (· ∈ delimiters) = false) : Word text :=
  ⟨hne, fun c hc hdelimiter => List.any_eq_false.mp hany c hc (decide_eq_true hdelimiter)⟩

/-- The kind of a token that has this text. -/
def Kind.ofText : List Char → Kind
  | [] => .eof
  | c :: rest => match (Piece.classify c rest).1 with
    | .token kind => kind
    | _ => .eof

def Token.ofText (text : String) : Token := ⟨.ofText text.toList, text, 0⟩

theorem Kind.ofText_of_lexeme {kind : Kind} {text : List Char} (h : Lexeme kind text) : Kind.ofText text = kind := by
  cases text with
  | nil => exact absurd rfl h.ne_nil
  | cons c rest =>
    have hclassify : Piece.classify c (rest ++ []) = (.token kind, rest.length) := Piece.classify_lexeme h nofun
    rw [List.append_nil] at hclassify
    rw [Kind.ofText, hclassify]

/-- The text of the token is one that a token of its kind can have. -/
def Token.Spelled (t : Token) : Prop := Lexeme t.kind t.lexeme.toList

theorem Token.Spelled.ofText {t : Token} (h : t.Spelled) : Token.ofText t.lexeme = t.relabel .blank := by
  rw [Token.ofText, Kind.ofText_of_lexeme h]
  rfl

/-- Parentheses are no words, and strings may have blanks in them. -/
theorem word_of_lexeme {kind : Kind} {text : List Char} (h : Lexeme kind text) (hstring : ∀ s, kind ≠ .string s)
    (hkind : kind ∉ [leftParen, rightParen]) : Word text := by
  have hdigit {c : Char} (hc : c.isDigit = true) : c ∉ delimiters := not_delimiter (by decide) hc
  cases h with
  | symbol hmem =>
    have hsymbols : ∀ symbol ∈ symbols, symbol.2 ∉ [leftParen, rightParen] → symbol.1.any (· ∈ delimiters) = false := by
      decide
    exact word_of_any (Piece.symbols_ne_nil _ hmem) (hsymbols _ hmem hkind)
  | word hstarts hcontinues =>
    exact ⟨List.cons_ne_nil _ _, List.forall_mem_cons.mpr ⟨not_delimiter (by decide) hstarts,
      fun d hd => not_delimiter (by decide) (hcontinues d hd)⟩⟩
  | integer hdigits => exact ⟨List.cons_ne_nil _ _, fun c hc => hdigit (hdigits c hc)⟩
  | decimal hdigits hmore =>
    refine ⟨List.cons_ne_nil _ _, List.forall_mem_append.mpr ⟨fun c hc => hdigit (hdigits c hc), ?_⟩⟩
    exact List.forall_mem_cons.mpr ⟨by decide, fun c hc => hdigit (hmore c hc)⟩
  | string => exact absurd rfl (hstring _)

end Words

/-- The literal is told by its text: in a tree a string has no quotes, and a number that is infinite looks like a name. -/
def Literal.isDistinct : Literal → Bool
  | .string _ => false
  | .number n => n.isFinite
  | .nil | .bool _ => true

/-- The text of the literal is that of a token for it, which is a word. -/
def Literal.Legible (v : Literal) : Prop :=
  ∃ kind, Lexeme kind v.render.toList ∧ kind.constant? = some v ∧ ∀ s, kind ≠ .string s

theorem Kind.eq_number {kind : Kind} {n : Number} (h : kind.constant? = some (.number n)) : kind = .number n := by
  cases kind <;> simp_all [Kind.constant?]

theorem lexeme_keyword (spelling : String × Kind) (h : spelling ∈ keywords) : Lexeme spelling.2 spelling.1.toList := by
  have hwords : ∀ spelling ∈ keywords, ∃ c rest, spelling.1.toList = c :: rest ∧ Piece.startsWord c = true ∧
      ∀ d ∈ rest, Piece.continuesWord d = true := by
    simp [keywords, Piece.startsWord, Piece.continuesWord]
  obtain ⟨c, rest, htext, hstarts, hcontinues⟩ := hwords spelling h
  have hword := Lexeme.word hstarts hcontinues
  rwa [← htext, String.ofList_toList, spellings_of_keywords spelling h] at hword

theorem Literal.legible {ts : List Token} (hts : ∀ t ∈ ts, t.Spelled) {v : Literal}
    (hv : v = .number .one ∨ ∃ t ∈ ts, t.kind.constant? = some v) (hdistinct : v.isDistinct = true) : v.Legible := by
  cases v with
  | nil => exact ⟨.kwNil, lexeme_keyword ("nil", .kwNil) (by decide), rfl, nofun⟩
  | bool b =>
    cases b with
    | true => exact ⟨.kwTrue, lexeme_keyword ("true", .kwTrue) (by decide), rfl, nofun⟩
    | false => exact ⟨.kwFalse, lexeme_keyword ("false", .kwFalse) (by decide), rfl, nofun⟩
  | number n =>
    have hpositive : n.isNegative = false := by
      rcases hv with hone | ⟨t, ht, hconstant⟩
      · cases hone
        decide
      · have hspelled := hts t ht
        rw [Token.Spelled, Kind.eq_number hconstant] at hspelled
        exact Number.isNegative_of_lexeme hspelled
    exact ⟨.number n, Number.lexeme_inTree hdistinct hpositive, rfl, nofun⟩
  | string => cases hdistinct

namespace Expr

/-- What a word stands for. -/
def ofWord (t : Token) : Expr :=
  match t.kind.constant? with
  | some value => .literal value
  | none => if t.kind = .kwThis then .self 0 t else .read 0 t

/-- What a list stands for, by the word in front and the trees of its parts. -/
def ofList (head : String) (parts : List Expr) : Expr :=
  match head, parts with
  | "group", [inner] => .grouping inner
  | "=", [.read id name, value] => .assign id name value
  | "=", [.get object name, value] => .set object name value
  | "call", callee :: arguments => .call callee (.ofText ")") arguments
  | ".", [object, .read _ name] => .get object name
  | "super", [.read id method] => .inherited id (.ofText "super") method
  | operator, [operand] => .unary (.ofText operator) operand
  | operator, [left, right] =>
    if (Token.ofText operator).kind ∈ Kind.logical then .logical left (.ofText operator) right
    else .binary left (.ofText operator) right
  | _, _ => default

mutual

/-- The tree as words and lists. -/
def nested : Expr → Nested
  | .literal value => .word value.render
  | .grouping inner => .list "group" [inner.nested]
  | .unary operator operand => .list operator.lexeme [operand.nested]
  | .binary left operator right | .logical left operator right => .list operator.lexeme [left.nested, right.nested]
  | .read _ name => .word name.lexeme
  | .assign _ name value => .list "=" [.word name.lexeme, value.nested]
  | .call callee _ arguments => .list "call" (callee.nested :: nestedEach arguments)
  | .get object name => .list "." [object.nested, .word name.lexeme]
  | .set object name value => .list "=" [.list "." [object.nested, .word name.lexeme], value.nested]
  | .self _ _ => .word "this"
  | .inherited _ _ method => .list "super" [.word method.lexeme]

def nestedEach : List Expr → List Nested
  | [] => []
  | e :: rest => e.nested :: nestedEach rest

end

mutual

theorem render_eq : ∀ e : Expr, e.render.toList = e.nested.chars
  | .literal _ | .read _ _ | .self _ _ => rfl
  | .grouping inner => toList_parenthesized _ (by simp [inner.render_eq])
  | .unary _ operand => toList_parenthesized _ (by simp [operand.render_eq])
  | .binary left _ right | .logical left _ right => toList_parenthesized _ (by simp [left.render_eq, right.render_eq])
  | .assign _ name value => toList_parenthesized _ (by simp [value.render_eq, Nested.chars])
  | .call callee _ arguments => toList_parenthesized _ (by simp [callee.render_eq, renderEach_eq arguments])
  | .get object name => toList_parenthesized _ (by simp [object.render_eq, Nested.chars])
  | .set object name value => by
    have hget : (parenthesized [".", object.render, name.lexeme]).toList =
        (Nested.list "." [object.nested, .word name.lexeme]).chars :=
      toList_parenthesized _ (by simp [object.render_eq, Nested.chars])
    exact toList_parenthesized _ (by simp [hget, value.render_eq])
  | .inherited _ _ method => toList_parenthesized _ (by simp [Nested.chars])

theorem renderEach_eq : ∀ es : List Expr, (renderEach es).map String.toList = (nestedEach es).map Nested.chars
  | [] => rfl
  | e :: rest => by simp only [renderEach, nestedEach, List.map_cons, e.render_eq, renderEach_eq rest]

end

end Expr

mutual

/-- The tree that words and lists stand for. -/
def Nested.tree : Nested → Expr
  | .word text => .ofWord (.ofText text)
  | .list head parts => .ofList head (Nested.trees parts)

def Nested.trees : List Nested → List Expr
  | [] => []
  | part :: rest => part.tree :: Nested.trees rest

end

namespace Expr

section Operators

/-- The words in front of the lists that are no operations. -/
def heads : List String := ["group", "=", "call", ".", "super"]

theorem ofList_one {head : String} (h : head ∉ heads) (operand : Expr) :
    ofList head [operand] = .unary (.ofText head) operand := by
  simp only [heads, List.mem_cons, List.not_mem_nil, or_false, not_or] at h
  unfold ofList
  split <;> simp_all

theorem ofList_two {head : String} (h : head ∉ heads) (left right : Expr) : ofList head [left, right] =
    if (Token.ofText head).kind ∈ Kind.logical then .logical left (.ofText head) right
    else .binary left (.ofText head) right := by
  simp only [heads, List.mem_cons, List.not_mem_nil, or_false, not_or] at h
  unfold ofList
  split <;> simp_all

theorem word_heads {head : String} (h : head ∈ heads) : Word head.toList := by
  have hheads : ∀ head ∈ heads, head.toList ≠ [] ∧ head.toList.any (· ∈ delimiters) = false := by decide
  exact word_of_any (hheads _ h).1 (hheads _ h).2

theorem notMem_heads {operator : Token} (h : operator.Spelled)
    (hkind : operator.kind ∈ Kind.unary ++ Kind.binary ++ Kind.logical) : operator.lexeme ∉ heads := by
  have hheads : ∀ head ∈ heads, (Token.ofText head).kind ∉ Kind.unary ++ Kind.binary ++ Kind.logical := by decide +kernel
  intro hmem
  have hother := hheads _ hmem
  rw [h.ofText] at hother
  exact hother hkind

end Operators

/-- The text of the tree can be read again. -/
structure Legible (e : Expr) : Prop where
  solid : e.nested.Solid
  tree : e.nested.tree = e.relabel .blank

theorem word_name {name : Token} (h : name.Spelled) (hkind : name.kind = .identifier) : Word name.lexeme.toList :=
  word_of_lexeme h (by simp [hkind]) (by simp [hkind])

theorem tree_name {name : Token} (h : name.Spelled) (hkind : name.kind = .identifier) :
    (Nested.word name.lexeme).tree = .read 0 (name.relabel .blank) := by
  rw [Nested.tree, h.ofText, ofWord, Token.relabel]
  simp [hkind, Kind.constant?]

/-- A keyword that is written in one way. -/
theorem relabel_keyword {t : Token} (h : t.Spelled) {word : String} {kind : Kind} (hkind : t.kind = kind)
    (hmem : kind ∈ keywords.map Prod.snd) (honly : ∀ spelling ∈ spellings, spelling.2 = kind → spelling.1 = word) :
    t.relabel .blank = .ofText word := by
  have hspelling := lexeme_of_reserved h (hkind ▸ hmem)
  rw [String.ofList_toList] at hspelling
  have hword : t.lexeme = word := honly _ hspelling hkind
  rw [← h.ofText, hword]

theorem relabel_paren {t : Token} (h : t.Spelled) (hkind : t.kind = .rightParen) : t.relabel .blank = .ofText ")" := by
  have htext : t.lexeme.toList = [')'] := by
    rw [Token.Spelled, hkind] at h
    generalize hparen : Kind.rightParen = kind at h
    generalize t.lexeme.toList = text at h
    cases h with
    | symbol hmem =>
      have hsymbols : ∀ symbol ∈ symbols, rightParen = symbol.2 → symbol.1 = [')'] := by decide
      exact hsymbols _ hmem hparen
    | word =>
      have hmem := ofWord_eq hparen.symm (by simp)
      simp [keywords] at hmem
    | integer | decimal | string => cases hparen
  rw [← h.ofText, ← String.ofList_toList (s := t.lexeme), htext]

theorem word_operator {operator : Token} (h : operator.Spelled)
    (hkind : operator.kind ∈ Kind.unary ++ Kind.binary ++ Kind.logical) : Word operator.lexeme.toList := by
  have hstring : ∀ s, Kind.string s ∉ Kind.unary ++ Kind.binary ++ Kind.logical := by
    simp [Kind.unary, Kind.binary, Kind.logical]
  refine word_of_lexeme h (fun s hs => hstring s (hs ▸ hkind)) fun hparen => ?_
  have hparens : ∀ kind ∈ [leftParen, rightParen], kind ∉ Kind.unary ++ Kind.binary ++ Kind.logical := by decide
  exact hparens _ hparen hkind

theorem legible_two {operator : Token} (h : operator.Spelled)
    (hkind : operator.kind ∈ Kind.unary ++ Kind.binary ++ Kind.logical) {left right : Expr} (hleft : left.Legible)
    (hright : right.Legible) :
    (Nested.list operator.lexeme [left.nested, right.nested]).Solid ∧
    (Nested.list operator.lexeme [left.nested, right.nested]).tree =
      if operator.kind ∈ Kind.logical then .logical (left.relabel .blank) (operator.relabel .blank) (right.relabel .blank)
      else .binary (left.relabel .blank) (operator.relabel .blank) (right.relabel .blank) := by
  refine ⟨⟨word_operator h hkind, hleft.solid, hright.solid, trivial⟩, ?_⟩
  rw [Nested.tree, Nested.trees, Nested.trees, Nested.trees, ofList_two (notMem_heads h hkind), h.ofText, hleft.tree,
    hright.tree]
  rfl

mutual

/-- Whatever was read, but for strings and infinite numbers. -/
theorem legible : ∀ e : Expr, e.InDomain → (∀ t ∈ e.tokens, t.Spelled) → (∀ v ∈ e.literals, v.Legible) → e.Legible
  | .literal value, _, _, hliterals => by
    obtain ⟨kind, hlexeme, hconstant, hstring⟩ := hliterals value List.mem_cons_self
    refine ⟨word_of_lexeme hlexeme hstring fun hparen => ?_, ?_⟩
    · have hparens : ∀ kind ∈ [leftParen, rightParen], kind.constant? = none := by decide
      rw [hparens _ hparen] at hconstant
      cases hconstant
    · rw [nested, Nested.tree, Token.ofText, Kind.ofText_of_lexeme hlexeme, ofWord, hconstant]
      rfl
  | .grouping inner, hdomain, htokens, hliterals => by
    have h := inner.legible hdomain htokens hliterals
    exact ⟨⟨word_heads (by decide), h.solid, trivial⟩, congrArg grouping h.tree⟩
  | .unary operator operand, hdomain, htokens, hliterals => by
    rw [tokens, List.forall_mem_cons] at htokens
    have hkind : operator.kind ∈ Kind.unary ++ Kind.binary ++ Kind.logical := by simp [hdomain.1]
    have h := operand.legible hdomain.2 htokens.2 hliterals
    refine ⟨⟨word_operator htokens.1 hkind, h.solid, trivial⟩, ?_⟩
    rw [nested, Nested.tree, Nested.trees, Nested.trees, ofList_one (notMem_heads htokens.1 hkind), htokens.1.ofText, h.tree]
    rfl
  | .binary left operator right, hdomain, htokens, hliterals => by
    rw [tokens, List.forall_mem_cons, List.forall_mem_append] at htokens
    rw [literals, List.forall_mem_append] at hliterals
    have hbinary : operator.kind ∉ Kind.logical := by
      have hapart : ∀ kind ∈ Kind.binary, kind ∉ Kind.logical := by decide
      exact hapart _ hdomain.1
    obtain ⟨hsolid, htree⟩ := legible_two htokens.1 (by simp [hdomain.1]) (left.legible hdomain.2.1 htokens.2.1 hliterals.1)
      (right.legible hdomain.2.2 htokens.2.2 hliterals.2)
    exact ⟨hsolid, htree.trans (if_neg hbinary)⟩
  | .logical left operator right, hdomain, htokens, hliterals => by
    rw [tokens, List.forall_mem_cons, List.forall_mem_append] at htokens
    rw [literals, List.forall_mem_append] at hliterals
    obtain ⟨hsolid, htree⟩ := legible_two htokens.1 (by simp [hdomain.1]) (left.legible hdomain.2.1 htokens.2.1 hliterals.1)
      (right.legible hdomain.2.2 htokens.2.2 hliterals.2)
    exact ⟨hsolid, htree.trans (if_pos hdomain.1)⟩
  | .read _ name, hdomain, htokens, _ => by
    have hname := htokens name List.mem_cons_self
    exact ⟨word_name hname hdomain, tree_name hname hdomain⟩
  | .assign _ name value, hdomain, htokens, hliterals => by
    rw [tokens, List.forall_mem_cons] at htokens
    have h := value.legible hdomain.2 htokens.2 hliterals
    refine ⟨⟨word_heads (by decide), word_name htokens.1 hdomain.1, h.solid, trivial⟩, ?_⟩
    rw [nested, Nested.tree, Nested.trees, Nested.trees, Nested.trees, tree_name htokens.1 hdomain.1, h.tree]
    rfl
  | .call callee paren arguments, hdomain, htokens, hliterals => by
    rw [tokens, List.forall_mem_cons, List.forall_mem_append] at htokens
    rw [literals, List.forall_mem_append] at hliterals
    have h := callee.legible hdomain.2.2.1 htokens.2.1 hliterals.1
    obtain ⟨hsolid, htrees⟩ := legibleEach arguments hdomain.2.2.2 htokens.2.2 hliterals.2
    refine ⟨⟨word_heads (by decide), h.solid, hsolid⟩, ?_⟩
    rw [nested, Nested.tree, Nested.trees, h.tree, htrees, relabel, relabel_paren htokens.1 hdomain.1]
    rfl
  | .get object name, hdomain, htokens, hliterals => by
    rw [tokens, List.forall_mem_cons] at htokens
    have h := object.legible hdomain.2 htokens.2 hliterals
    refine ⟨⟨word_heads (by decide), h.solid, word_name htokens.1 hdomain.1, trivial⟩, ?_⟩
    rw [nested, Nested.tree, Nested.trees, Nested.trees, Nested.trees, tree_name htokens.1 hdomain.1, h.tree]
    rfl
  | .set object name value, hdomain, htokens, hliterals => by
    rw [tokens, List.forall_mem_cons, List.forall_mem_append] at htokens
    rw [literals, List.forall_mem_append] at hliterals
    have hobject := object.legible hdomain.2.1 htokens.2.1 hliterals.1
    have hvalue := value.legible hdomain.2.2 htokens.2.2 hliterals.2
    have hget : (Nested.list "." [object.nested, .word name.lexeme]).tree =
        .get (object.relabel .blank) (name.relabel .blank) := by
      rw [Nested.tree, Nested.trees, Nested.trees, Nested.trees, tree_name htokens.1 hdomain.1, hobject.tree]
      rfl
    refine ⟨⟨word_heads (by decide), ⟨word_heads (by decide), hobject.solid, word_name htokens.1 hdomain.1, trivial⟩,
      hvalue.solid, trivial⟩, ?_⟩
    rw [nested, Nested.tree, Nested.trees, Nested.trees, Nested.trees, hget, hvalue.tree]
    rfl
  | .self _ keyword, hdomain, htokens, _ => by
    have hkeyword : keyword.relabel .blank = .ofText "this" :=
      relabel_keyword (htokens keyword List.mem_cons_self) hdomain (by decide) (by decide)
    refine ⟨word_of_lexeme (lexeme_keyword ("this", .kwThis) (by decide)) nofun (by decide), ?_⟩
    rw [nested, Nested.tree, relabel, hkeyword]
    rfl
  | .inherited _ keyword method, hdomain, htokens, _ => by
    rw [tokens, List.forall_mem_cons, List.forall_mem_singleton] at htokens
    have hkeyword : keyword.relabel .blank = .ofText "super" :=
      relabel_keyword htokens.1 hdomain.1 (by decide) (by decide)
    refine ⟨⟨word_heads (by decide), word_name htokens.2 hdomain.2, trivial⟩, ?_⟩
    rw [nested, Nested.tree, Nested.trees, Nested.trees, tree_name htokens.2 hdomain.2, relabel, hkeyword]
    rfl

theorem legibleEach : ∀ es : List Expr, InDomainEach es → (∀ t ∈ tokensEach es, t.Spelled) →
    (∀ v ∈ literalsEach es, v.Legible) → Nested.SolidEach (nestedEach es) ∧ Nested.trees (nestedEach es) = relabelEach .blank es
  | [], _, _, _ => ⟨trivial, rfl⟩
  | e :: rest, hdomain, htokens, hliterals => by
    rw [tokensEach, List.forall_mem_append] at htokens
    rw [literalsEach, List.forall_mem_append] at hliterals
    have h := e.legible hdomain.1 htokens.1 hliterals.1
    obtain ⟨hsolid, htrees⟩ := legibleEach rest hdomain.2 htokens.2 hliterals.2
    refine ⟨⟨h.solid, hsolid⟩, ?_⟩
    rw [nestedEach, Nested.trees, relabelEach, h.tree, htrees]

end

end Expr

end LoxLang
