import LoxLang.Proofs.Classes.Evaluation
import LoxLang.Proofs.Depth.Calls

/-! Runs from a lawful place, by induction on the bound of the run, and the moments of such a run, by induction on how
they follow each other. -/

namespace LoxLang

open Frames Run

variable {past : Moment → Prop} {c : Chart} {l : Layout} {around : Option Enclosure}

section Evaluators

variable (hpast : Timeline past)

include hpast

theorem guards_eval {n : Nat} (ih : Leading past c n) {d : Option Token} {e : Expr} {m : Machine}
    (hk : Moment.Lawful past c l around ⟨n + 1, .expr d e, m⟩) : Guards past c (eval (n + 1) e) m := by
  have hm := hk.machine
  cases e with
  | literal value => exact guards_pure hm _
  | grouping inner => exact ih.eval (hk.first hpast rfl)
  | unary operator operand =>
    exact (ih.eval (hk.first hpast rfl)).bind fun a m' _ h => guards_unary h.lawful operator a
  | binary left operator right =>
    refine (ih.eval (hk.first hpast rfl)).bind fun a m' e h => ?_
    exact (ih.eval (hk.second hpast rfl e h rfl)).bind fun b m'' _ h' => guards_binary h'.lawful operator a b
  | logical left operator right =>
    refine (ih.eval (hk.first hpast rfl)).bind fun a m' e h => ?_
    split
    · exact guards_pure h.lawful _
    · rename_i hdecides
      exact ih.eval (hk.second hpast rfl e h (if_neg hdecides))
  | read id name => exact guards_read hm id name
  | assign id name value =>
    have hname : name.lexeme ∉ reserved := hk.code.proper ⟨.assign, id, name⟩ List.mem_cons_self
    exact (ih.eval (hk.first hpast rfl)).bind fun v m' _ h => guards_assign h.lawful id hname v
  | call callee paren arguments =>
    refine (ih.eval (hk.first hpast rfl)).bind fun f m₁ e₁ h₁ => ?_
    refine (guards_each ih hpast arguments (hk.arguments hpast e₁ h₁)).bind fun values m₂ e₂ h₂ => ?_
    refine (guards_admitCall h₂.lawful _ _ _).bind fun _ m₃ e₃ h₃ => guards_asCall ?_
    exact guards_call ih hpast (h₃.lawful.deeper _) fun body m' hcalled =>
      hpast _ _ hk.reached (.call e₁ e₂ e₃ hcalled)
  | get object name =>
    refine (ih.eval (hk.first hpast rfl)).bind fun v m' _ h => ?_
    split
    · exact guards_property h.lawful _ _
    · exact guards_fail h.lawful _ _
  | set object name value =>
    refine (ih.eval (hk.first hpast rfl)).bind fun v m' e h => ?_
    split
    · rename_i o
      refine (ih.eval (hk.second hpast rfl e h rfl)).bind fun w m'' _ h' => ?_
      have hset : Guards past c (inHeap fun h => ((), h.setField o name.lexeme w)) m'' :=
        guards_inStore _ h'.lawful (h'.lawful.store.lasts (Store.lasts_setField ..) rfl rfl) (Store.lasts_setField ..)
      exact hset.bind fun _ _ _ h₃ => guards_pure h₃.lawful _
    · exact guards_fail h.lawful _ _
  | self id keyword => exact guards_read hm id keyword
  | inherited id keyword method => exact guards_inherited hk rfl

theorem guards_exec {n : Nat} (ih : Leading past c n) {s : Stmt} {m : Machine}
    (hk : Moment.Lawful past c l around ⟨n + 1, .stmt s, m⟩) : Guards past c (exec (n + 1) s) m := by
  have hm := hk.machine
  cases s with
  | expression e => exact (ih.eval (hk.value hpast rfl)).bind fun _ _ _ h => guards_pure h.lawful _
  | print e =>
    refine (ih.eval (hk.value hpast rfl)).bind fun v _ _ h => ?_
    exact (guards_print h.lawful v).bind fun _ _ _ h' => guards_pure h'.lawful _
  | var name initial =>
    have hdefine : ∀ {v : Value} {m' : Machine}, m.Leads past c m' →
        Guards past c (define name.lexeme v >>= fun _ => pure Completion.normal) m' := fun h =>
      (guards_define h.lawful hk.code.tidy _).bind fun _ _ _ h' => guards_pure h'.lawful _
    cases initial with
    | none => exact (guards_pure hm _).bind fun v m' _ h => hdefine h
    | some e => exact (ih.eval (hk.value hpast rfl)).bind fun v m' _ h => hdefine h
  | block body => exact guards_get (guards_inNewFrame (guards_sequence ih hpast body (hk.block hpast)))
  | branch condition yes no =>
    refine (ih.eval (hk.value hpast rfl)).bind fun v m' e h => ?_
    split
    · rename_i htrue
      exact ih.exec (hk.chosen hpast rfl e h (if_pos htrue))
    · rename_i hfalse
      cases no with
      | none => exact guards_pure h.lawful _
      | some s => exact ih.exec (hk.chosen hpast rfl e h (if_neg hfalse))
  | loop condition body =>
    refine (ih.eval (hk.value hpast rfl)).bind fun v m' e h => ?_
    split
    · rename_i htrue
      refine (ih.exec (hk.chosen hpast rfl e h (if_pos htrue))).bind fun completion m'' e' h' => ?_
      cases completion with
      | normal => exact ih.exec (hk.again hpast e htrue e' (h.trans h'))
      | returned v => exact guards_pure h'.lawful _
    · exact guards_pure h.lawful _
  | function f => exact (guards_declareFunction hk).bind fun _ _ _ h => guards_pure h.lawful _
  | ret keyword value =>
    cases value with
    | none => exact guards_pure hm _
    | some e => exact (ih.eval (hk.value hpast rfl)).bind fun _ _ _ h => guards_pure h.lawful _
  | classDecl name superclass methods =>
    cases superclass with
    | none =>
      refine (guards_pure hm _).bind fun k m' e _ => ?_
      cases e
      exact (guards_declareBase hk).bind fun _ _ _ h => guards_pure h.lawful _
    | some u =>
      refine (guards_superclassOf hm u).bind fun k m' e h => (guards_pure h.lawful _).bind fun k' m'' e' _ => ?_
      cases e'
      obtain ⟨rfl, -⟩ := read_of_superclassOf e
      exact (guards_declareDerived e hk).bind fun _ _ _ h => guards_pure h.lawful _

/-- One induction on the bound for both evaluators: calls run statements, and statements evaluate. -/
theorem leading (n : Nat) : Leading past c n := by
  induction n with
  | zero => exact ⟨fun hk => guards_throw hk.machine _, fun hk => guards_throw hk.machine _⟩
  | succ n ih => exact ⟨guards_eval hpast ih, guards_exec hpast ih⟩

namespace Moment.Lawful

/-- A unit runs at top level, where nothing that it declares is in a scope. -/
theorem performed {n : Nat} {s : Stmt} {rest : List Stmt} {m : Machine}
    (hk : Lawful past c l around ⟨n, .unit (s :: rest), m⟩) (h : ∀ e, s = .expression e → m.prompt = false) :
    Lawful past c l around ⟨n, .stmt s, m⟩ :=
  hk.later (hpast _ _ hk.reached (.performed h)) (.refl hk.machine) hk.code.ofUnit.statement

theorem shown {n : Nat} {e : Expr} {rest : List Stmt} {m : Machine}
    (hk : Lawful past c l around ⟨n, .unit (.expression e :: rest), m⟩) (h : m.prompt = true) :
    Lawful past c l around ⟨n, .expr none e, m⟩ :=
  hk.later (hpast _ _ hk.reached (.shown h)) (.refl hk.machine) (hk.code.ofUnit.statement.value rfl)

theorem perform {n : Nat} {s : Stmt} {rest : List Stmt} {m : Machine}
    (hk : Lawful past c l around ⟨n, .unit (s :: rest), m⟩) : Guards past c (perform n s) m := by
  have ih : Leading past c n := leading hpast n
  have hexec : (∀ e, s = .expression e → m.prompt = false) →
      Guards past c (exec n s >>= fun _ => pure ()) m := fun h =>
    (ih.exec (hk.performed hpast h)).bind fun _ _ _ h' => guards_pure h'.lawful _
  unfold LoxLang.perform
  cases s with
  | expression e =>
    refine guards_get ?_
    cases hprompt : m.prompt with
    | true => exact (ih.eval (hk.shown hpast hprompt)).bind fun v _ _ h => guards_print h.lawful v
    | false => exact hexec fun _ _ => hprompt
  | print | var | block | branch | loop | function | ret | classDecl => exact guards_get (hexec nofun)

theorem next {n : Nat} {s : Stmt} {rest : List Stmt} {m m' : Machine}
    (hk : Lawful past c l around ⟨n, .unit (s :: rest), m⟩) (e : LoxLang.perform n s m = .ok () m') :
    Lawful past c l around ⟨n, .unit rest, m'⟩ :=
  hk.later (hpast _ _ hk.reached (.next e)) ((hk.perform hpast).of_ok e) hk.code.next

/-- What begins after a moment in a lawful place stands in one too: in the frame of the code around it, where perhaps more
is declared by then; in a new frame inside that one; or, if it is called, in the frames that the function keeps. -/
theorem starts_cases {k k' : Moment} (hk : k.Lawful past c l around) (h : k.Starts k') :
    (∃ names, (∀ x ∈ names, x ∉ reserved) ∧ k'.Lawful past c (l.declare names) around ∧
      k'.machine.current = k.machine.current) ∨
    (k'.Lawful past c ([] :: l) around ∧ k'.machine = k.machine.enter k.machine.current ∅) ∨
    (k.Calls k' ∧ ∃ l around, k'.Lawful past c l around) := by
  have ih (n : Nat) : Leading past c n := leading hpast n
  have hsame (hk' : k'.Lawful past c l around) (hcurrent : k'.machine.current = k.machine.current) :
      ∃ names, (∀ x ∈ names, x ∉ reserved) ∧ k'.Lawful past c (l.declare names) around ∧
        k'.machine.current = k.machine.current := ⟨[], nofun, l.declare_nil.symm ▸ hk', hcurrent⟩
  cases h with
  | first he => exact .inl (hsame (hk.first hpast he) rfl)
  | second he e he' =>
    have hleads := ((ih _).eval (hk.first hpast he)).of_ok e
    exact .inl (hsame (hk.second hpast he e hleads he') hleads.current)
  | arguments e =>
    have hleads := ((ih _).eval (hk.first hpast rfl)).of_ok e
    exact .inl (hsame (hk.arguments hpast e hleads) hleads.current)
  | argument => exact .inl (hsame (hk.argument hpast) rfl)
  | others e =>
    have hleads := ((ih _).eval (hk.argument hpast)).of_ok e
    exact .inl (hsame (hk.others hpast e hleads) hleads.current)
  | @call n d callee paren es f values body m m₁ m₂ m₃ m₄ e₁ e₂ e₃ hcalled =>
    have h₁ := ((ih n).eval (hk.first hpast rfl)).of_ok e₁
    have h₂ := (guards_each (ih n) hpast es (hk.arguments hpast e₁ h₁)).of_ok e₂
    have hreached := hpast _ _ hk.reached (.call e₁ e₂ e₃ hcalled)
    obtain ⟨rfl, -⟩ := arity_of_admitCall e₃
    have hcalls : Calls ⟨n + 1, .expr d (.call callee paren es), m⟩ ⟨n, .body body, m₄⟩ :=
      ⟨_, _, _, _, _, ⟨_, _, .mk e₁ e₂, e₃, rfl⟩, hcalled, rfl⟩
    obtain ⟨κ, m', hinvokes, rfl, rfl⟩ := Machine.called?_eq_some.mp hcalled
    obtain ⟨hm', hsits⟩ := (h₂.lawful.deeper _).invokes hinvokes
    exact .inr (.inr ⟨hcalls, called hm' hsits hreached⟩)
  | value hv => exact .inl (hsame (hk.value hpast hv) rfl)
  | chosen hv e hs =>
    have hleads := ((ih _).eval (hk.value hpast hv)).of_ok e
    exact .inl (hsame (hk.chosen hpast hv e hleads hs) hleads.current)
  | again e₁ htrue e₂ =>
    have h₁ := ((ih _).eval (hk.value hpast rfl)).of_ok e₁
    have h₂ := ((ih _).exec (hk.chosen hpast rfl e₁ h₁ (if_pos htrue))).of_ok e₂
    exact .inl (hsame (hk.again hpast e₁ htrue e₂ (h₁.trans h₂)) (h₁.trans h₂).current)
  | block => exact .inr (.inl ⟨hk.block hpast, rfl⟩)
  | statement => exact .inl (hsame (hk.statement hpast) rfl)
  | rest e =>
    have hleads := ((ih _).exec (hk.statement hpast)).of_ok e
    exact .inl ⟨_, hk.code.tidy.1.declares_not_reserved, hk.rest hpast e hleads, hleads.current⟩
  | shown hprompt => exact .inl (hsame (hk.shown hpast hprompt) rfl)
  | performed h => exact .inl (hsame (hk.performed hpast h) rfl)
  | next e => exact .inl (hsame (hk.next hpast e) ((hk.perform hpast).of_ok e).current)

theorem starts {k k' : Moment} (hk : k.Lawful past c l around) (h : k.Starts k') :
    ∃ l around, k'.Lawful past c l around := by
  rcases hk.starts_cases hpast h with ⟨names, -, hk', -⟩ | ⟨hk', -⟩ | ⟨-, hk'⟩
  · exact ⟨_, around, hk'⟩
  · exact ⟨_, around, hk'⟩
  · exact hk'

theorem visits {k k' : Moment} (hk : k.Lawful past c l around) (h : k.Visits k') :
    ∃ l around, k'.Lawful past c l around := by
  induction h with
  | refl => exact ⟨l, around, hk⟩
  | tail _ hstep ih =>
    obtain ⟨l', around', hk'⟩ := ih
    exact hk'.starts hpast hstep

end Moment.Lawful

/-- A unit in a lawful place leads to a lawful machine, however it ends. -/
theorem guards_interpret (n : Nat) : ∀ (statements : List Stmt) {m : Machine},
    Moment.Lawful past c l around ⟨n, .unit statements, m⟩ → Guards past c (interpret n statements) m
  | [], _, hk => guards_pure hk.machine _
  | _ :: rest, _, hk =>
    (hk.perform hpast).bind fun _ _ e _ => guards_interpret n rest (hk.next hpast e)

end Evaluators

end LoxLang
