import LoxLang.Diagnostic
import LoxLang.Tree.Basic
import Std.Data.ExtTreeMap
import Std.Data.ExtTreeSet

/-! For each use of a local name, how many scopes lie between the use and the scope that declares it. The walk
keeps the open scopes, the top-level names seen so far, the distances found and the faults found. A use that no
open scope declares gets no distance: it is global. -/

namespace LoxLang

/-- Distances by node. -/
abbrev Bindings := Std.ExtTreeMap NodeId Nat

/-- A name is declared before its initial value is walked, and defined after it. -/
inductive Standing
  | declared
  | defined
deriving DecidableEq, Repr

abbrev Scope := Std.ExtTreeMap String Standing

/-- The innermost function around a place. -/
inductive FunctionKind
  | none
  | function
  | method
  | initializer
deriving DecidableEq, Repr

/-- The innermost class around a place. -/
inductive ClassKind
  | none
  | base
  | derived
deriving DecidableEq, Repr

structure Surroundings where
  function : FunctionKind
  cls : ClassKind
deriving DecidableEq, Repr

def Surroundings.topLevel : Surroundings := ⟨.none, .none⟩

structure Walk where
  /-- The open scopes, the innermost first. -/
  scopes : List Scope
  globals : Std.ExtTreeSet String
  bindings : Bindings
  faults : List Diagnostic

namespace Walk

def start (globals : Std.ExtTreeSet String) : Walk := ⟨[], globals, ∅, []⟩

def fault (t : Token) (cause : BindingFault) (w : Walk) : Walk :=
  { w with faults := w.faults ++ [.binding t.mark cause] }

/-- Walks in a new scope that already has some names defined. -/
def inScope (names : List String) (walk : Walk → Walk) (w : Walk) : Walk :=
  let scope := names.foldl (fun (s : Scope) name => s.insert name .defined) ∅
  let w := walk { w with scopes := scope :: w.scopes }
  { w with scopes := w.scopes.tail }

/-- Outside all scopes a declared name is global; within one it must be new. -/
def declare (t : Token) (w : Walk) : Walk :=
  match w.scopes with
  | [] => { w with globals := w.globals.insert t.lexeme }
  | scope :: outer =>
    if scope.contains t.lexeme then w.fault t .declaredTwice
    else { w with scopes := scope.insert t.lexeme .declared :: outer }

def define (t : Token) (w : Walk) : Walk :=
  match w.scopes with
  | [] => w
  | scope :: outer => { w with scopes := scope.insert t.lexeme .defined :: outer }

def record (id : NodeId) (distance : Nat) (w : Walk) : Walk :=
  { w with bindings := w.bindings.insert id distance }

/-- The number of scopes between the innermost one and the nearest that has the name. -/
def distance? (name : String) (scopes : List Scope) : Option Nat := scopes.findIdx? fun s => s.contains name

/-- Records the nearest scope that has the name, if there is one. -/
def use (id : NodeId) (name : String) (w : Walk) : Walk :=
  match distance? name w.scopes with
  | some d => w.record id d
  | none => w

/-- Is the innermost scope still walking the initial value of this name? -/
def isInitializing (name : String) (w : Walk) : Bool :=
  match w.scopes with
  | [] => false
  | scope :: _ => scope[name]? == some .declared

/-- Reads a name. Inside its own initial value the innermost scope does not count, and some other binding of the
name must be known. -/
def read (id : NodeId) (t : Token) (w : Walk) : Walk :=
  if w.isInitializing t.lexeme then
    match distance? t.lexeme w.scopes.tail with
    | some d => w.record id (d + 1)
    | none => if w.globals.contains t.lexeme then w else w.fault t .ownInitializer
  else w.use id t.lexeme

/-- Refers to the instance whose method runs. -/
def self (around : Surroundings) (id : NodeId) (t : Token) (w : Walk) : Walk :=
  match around.cls with
  | .none => w.fault t .thisOutsideClass
  | _ => w.use id t.lexeme

/-- Refers to the superclass of the class around. -/
def inherited (around : Surroundings) (id : NodeId) (t : Token) (w : Walk) : Walk :=
  match around.cls with
  | .none => w.fault t .superOutsideClass
  | .base => w.fault t .superWithoutSuperclass
  | .derived => w.use id t.lexeme

/-- Leaves a function, with or without a value. -/
def ret (around : Surroundings) (t : Token) (valued : Bool) (w : Walk) : Walk :=
  let w := if around.function = .none then w.fault t .returnAtTopLevel else w
  if valued && around.function == .initializer then w.fault t .returnFromInitializer else w

end Walk

end LoxLang
