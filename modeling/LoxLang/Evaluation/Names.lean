import LoxLang.Machine

/-! Reading and writing names: at the distance recorded for the node, or in the global frame if there is none. -/

namespace LoxLang.Run

def read (id : NodeId) (name : Token) : Run Value := do
  let m ← get
  let found := match m.bindings[id]? with
    | some d => m.store.frames.getAt? m.current d name.lexeme
    | none => m.store.frames.get? m.globals name.lexeme
  match found with
  | some v => return v
  | none => fail name (.undefinedVariable name.lexeme)

def assign (id : NodeId) (name : Token) (v : Value) : Run Value := do
  let m ← get
  let assigned ← inFrames fun fs => match m.bindings[id]? with
    | some d => fs.assignAt m.current d name.lexeme v
    | none => fs.assign m.globals name.lexeme v
  if assigned then return v else fail name (.undefinedVariable name.lexeme)

/-- A method of a class, as a function bound to an instance. -/
def boundMethod (c : ClassId) (o : ObjectId) (name : Token) : Run Value := do
  let m ← get
  match m.store.method? c name.lexeme with
  | some method => inStore fun s =>
    let (closure, s) := s.bind method o
    let (id, s) := s.inHeap fun h => h.addClosure closure
    (.function id, s)
  | none => fail name (.undefinedProperty name.lexeme)

/-- A property of an instance: its own field, or a method of its class. -/
def property (o : ObjectId) (name : Token) : Run Value := do
  let m ← get
  match m.store.field? o name.lexeme, m.store.objects[o]? with
  | some v, _ => return v
  | none, some object => boundMethod object.cls o name
  | none, none => fail name (.undefinedProperty name.lexeme)

/-- A method of the superclass for the instance whose method runs. The frame of the superclass is the one just
outside the frame of the instance. -/
def inherited (id : NodeId) (keyword method : Token) : Run Value := do
  let m ← get
  match m.bindings[id]? with
  | none => fail keyword (.undefinedVariable keyword.lexeme)
  | some d =>
    match m.store.frames.getAt? m.current d "super" with
    | some (.cls c) =>
      match d with
      | 0 => fail keyword .superWithoutThis
      | d + 1 =>
        match m.store.frames.getAt? m.current d "this" with
        | some (.object o) => boundMethod c o method
        | _ => fail keyword .superWithoutThis
    | _ => fail keyword .superclassNotClass

end LoxLang.Run
