import LoxLang.Proofs.Lexical.Pairs

/-! The operations of the two evaluators in pairs: output, names, properties, methods and declarations. -/

namespace LoxLang.Lexical

open Frames LoxLang.Run

variable {c : Chart} {slots : List Slot} {m : LoxLang.Machine} {r : Machine} {place : Place} {l : Layout}

theorem read_of_visible {name : Token} {v : Value} (h : r.valueOf? place.visible name.lexeme = some v) :
    read place name r = .ok v r := by
  unfold read
  rw [Halting.bind_of_ok (Halting.get_apply r), h]
  rfl

theorem read_of_unknown {name : Token} (h : r.valueOf? place.visible name.lexeme = none) :
    read place name r = .error (.error ⟨.undefinedVariable name.lexeme, name.line⟩) r := by
  unfold read
  rw [Halting.bind_of_ok (Halting.get_apply r), h]
  rfl

theorem assign_of_visible {name : Token} {v w : Value} (h : r.valueOf? place.visible name.lexeme = some w) :
    assign place name v r = .ok v (r.put place.visible name.lexeme v) := by
  unfold assign
  rw [Halting.bind_of_ok (Halting.get_apply r), h]
  rfl

theorem assign_of_unknown {name : Token} {v : Value} (h : r.valueOf? place.visible name.lexeme = none) :
    assign place name v r = .error (.error ⟨.undefinedVariable name.lexeme, name.line⟩) r := by
  unfold assign
  rw [Halting.bind_of_ok (Halting.get_apply r), h]
  rfl

theorem declare_apply (place : Place) (x : String) (v : Value) (r : Machine) :
    declare place x v r = .ok (r.declare place x v).1 (r.declare place x v).2 := rfl

section Basics

variable (h : Mirror c slots m r)

include h

theorem agree_print (v : Value) : Agree c slots m r (LoxLang.Run.print v) (print v) [] Same := by
  have hline : r.output.writeLine (r.heap.display v) = m.output.writeLine (m.store.display v) := by
    rw [h.output, h.heap.display]
  have hmirror : ∀ output, Mirror c slots { m with output := output } { r with output := output } := fun output =>
    { h with sound := ⟨h.sound.bindings, h.sound.store⟩, output := rfl }
  refine ⟨keeps_print h.sound v, ?_⟩
  unfold Pairs LoxLang.Run.print print
  simp only [hline]
  generalize m.output.writeLine (m.store.display v) = written
  obtain ⟨taken, output⟩ := written
  cases taken with
  | false => exact ⟨rfl, slots, hmirror output⟩
  | true => exact ⟨slots, List.prefix_refl _, hmirror output, rfl⟩

theorem agree_read (hs : Stands m slots place l) {id : NodeId} {name : Token}
    (hb : m.bindings[id]? = l.hops? name.lexeme) :
    Agree c slots m r (LoxLang.Run.read id name) (read place name) [] Same := by
  have hfound := h.found hs.view hb
  refine ⟨keeps_read h.sound id name, ?_⟩
  cases hv : r.valueOf? place.visible name.lexeme with
  | some v => exact pairs_of_ok (read_of_found (hfound.trans hv)) (read_of_visible hv) (List.prefix_refl _) h rfl
  | none => exact pairs_of_error (read_of_missing (hfound.trans hv)) (read_of_unknown hv) h

theorem agree_assign (hs : Stands m slots place l) {id : NodeId} {name : Token}
    (hb : m.bindings[id]? = l.hops? name.lexeme) (v : Value) :
    Agree c slots m r (LoxLang.Run.assign id name v) (assign place name v) [] Same := by
  refine ⟨keeps_assign h.sound id name v, ?_⟩
  rcases h.assigned hs.view hb v with ⟨w, f, hw, hf, hassigned⟩ | ⟨hnone, hrefused⟩
  · exact pairs_of_ok (assign_of_assigned hassigned) (assign_of_visible hw) (List.prefix_refl _) (h.put hs.view hf v) rfl
  · exact pairs_of_error (assign_of_refused hrefused) (assign_of_unknown hnone) h

theorem agree_define (hs : Stands m slots place l) {x : String} (hx : l.Free x) (v : Value) :
    Agree c slots m r (define x v) (declare place x v) [x]
      fun _ place m slots => Stands m slots place (l.declare [x]) := by
  obtain ⟨slots', hp, hm', hs'⟩ := h.declare hs hx v
  exact .of_ok (keeps_define h.sound hs.within x v) rfl rfl hp hm' hs'

theorem agree_setField (o : ObjectId) (x : String) (v : Value) :
    Agree c slots m r (LoxLang.Run.inHeap fun h => ((), h.setField o x v)) (inHeap fun h => ((), h.setField o x v)) []
      Same := by
  have hsound := h.sound.store.setField o x v
  exact .of_ok (keeps_inStore h.sound _ hsound (.refl _ _)) rfl rfl (List.prefix_refl _)
    (h.inHeap hsound (h.heap.setField o x v)) rfl

theorem agree_addObject (k : ClassId) :
    Agree c slots m r (LoxLang.Run.inHeap fun h => h.addObject k) (inHeap fun h => h.addObject k) []
      fun o o' m' _ => o' = o ∧ m'.store.classes = m.store.classes := by
  have hsound := h.sound.store.addObject k
  exact .of_ok (keeps_inStore h.sound _ hsound (.refl _ _)) rfl rfl (List.prefix_refl _)
    (h.inHeap hsound (h.heap.addObject k)) ⟨congrArg Array.size h.heap.objects, rfl⟩

/-- Bound to an instance, a method keeps the instance with a cell of its own. -/
theorem Mirror.bind {k : Closure FrameId} {k' : Closure Visible}
    (hk : k.Matches (Homed c m.store.frames m.globals slots .ofInstance) k') (o : ObjectId) :
    ∃ slots', slots <+: slots' ∧
      Mirror c slots' { m with store := (m.store.bind k o).2 } { r with cells := r.cells.push (.object o) } ∧
        (m.store.bind k o).1.Matches (Homed c (m.store.bind k o).2.frames m.globals slots' [])
          { k' with home := ("this", r.cells.size) :: k'.home } := by
  obtain ⟨hdeclared, hinitializer, l, hview, hfits, -⟩ := hk
  obtain ⟨slots', hp, hmirror, hthis⟩ := h.addNamed hview "this" (.object o)
  exact ⟨slots', hp, hmirror, hdeclared, hinitializer, ["this"] :: l, hthis, hfits, fun _ => rfl⟩

theorem agree_bind {k : Closure FrameId} {k' : Closure Visible}
    (hk : k.Matches (Homed c m.store.frames m.globals slots .ofInstance) k') (o : ObjectId) :
    Agree c slots m r (inStore fun s => s.bind k o) (bind k' o) []
      fun b b' m slots => b.Matches (Homed c m.store.frames m.globals slots []) b' ∧ b.declared = k.declared := by
  obtain ⟨slots', hp, h', hbound⟩ := h.bind hk o
  exact .of_ok (keeps_inStore h.sound _ h'.sound.store (Store.grows_bind _ _ _ _)) rfl rfl hp h' ⟨hbound, rfl⟩

theorem agree_boundMethod (k : ClassId) (o : ObjectId) (name : Token) :
    Agree c slots m r (LoxLang.Run.boundMethod k o name) (boundMethod k o name) [] Same := by
  refine ⟨keeps_boundMethod h.sound k o name, ?_⟩
  have hmethod := h.heap.method? k name.lexeme
  have hsize := size_of_rel h.heap.closures
  unfold Pairs LoxLang.Run.boundMethod boundMethod
  rw [Halting.bind_of_ok (Halting.get_apply m), Halting.bind_of_ok (Halting.get_apply r)]
  generalize m.store.method? k name.lexeme = method, r.heap.method? k name.lexeme = method' at hmethod ⊢
  cases hmethod with
  | none => exact ⟨rfl, slots, h⟩
  | some hk =>
    obtain ⟨slots', hp, hmirror, hbound⟩ := h.bind hk o
    have hadd := hmirror.inHeap (hmirror.sound.store.addClosure (hmirror.placed hbound.home))
      (hmirror.heap.addClosure hbound)
    exact ⟨slots', hp, hadd, congrArg Value.function hsize⟩

theorem agree_property (o : ObjectId) (name : Token) :
    Agree c slots m r (LoxLang.Run.property o name) (property o name) [] Same := by
  refine agree_get ?_
  simp only [h.heap.field?, h.heap.objects]
  cases m.store.field? o name.lexeme with
  | some v => exact agree_pure h rfl
  | none =>
    cases m.store.objects[o]? with
    | some object => exact agree_boundMethod h object.cls o name
    | none => exact agree_fail h name _

/-- The method of a superclass is sought at a distance, or from the visible superclass. -/
theorem agree_inherited (hs : Stands m slots place l) {id : NodeId} {keyword : Token} {d : Nat}
    (hthis : l.hops? "this" = some d) (hsuper : l.hops? "super" = some (d + 1)) (hb : m.bindings[id]? = some (d + 1))
    (method : Token) :
    Agree c slots m r (LoxLang.Run.inherited id keyword method) (inherited place keyword method) [] Same := by
  obtain ⟨v, hv, hv'⟩ := h.value_local hs.view hsuper
  obtain ⟨w, hw, hw'⟩ := h.value_local hs.view hthis
  refine agree_get ?_
  simp only [hb, hv, hv', hw, hw']
  cases v with
  | cls k =>
    cases w with
    | object o => exact agree_boundMethod h k o method
    | nil | bool | number | string | native | function | cls => exact agree_fail h _ _
  | nil | bool | number | string | native | function | object => exact agree_fail h _ _

theorem agree_admitCall (hs : Stands m slots place l) (paren : Token) (callee : Value) (given : Nat) :
    Agree c slots m r (LoxLang.Run.admitCall paren callee given) (admitCall place paren callee given) []
      fun _ _ m' _ => m' = m ∧ m.store.arity? callee = some given := by
  refine agree_get ?_
  simp only [h.heap.arity?, hs.depth]
  cases harity : m.store.arity? callee with
  | none => exact agree_fail h paren _
  | some expected =>
    dsimp only
    split
    · exact agree_fail h paren _
    · rename_i hgiven
      split
      · exact agree_fail h paren _
      · exact agree_pure h ⟨rfl, congrArg some (not_not.mp hgiven).symm⟩

theorem agree_superclassOf (hs : Stands m slots place l) {superclass : NameUse}
    (hb : m.bindings[superclass.id]? = l.hops? superclass.name.lexeme) :
    Agree c slots m r (LoxLang.Run.superclassOf superclass) (superclassOf place superclass) [] Same := by
  refine (agree_read h hs hb).then fun v v' m' r' slots' _ h' hv => ?_
  cases hv
  cases v with
  | cls k => exact agree_pure h' rfl
  | nil | bool | number | string | native | function | object => exact agree_fail h' _ _

end Basics

/-- The methods of a class keep the frame, or what is visible from it. -/
theorem Mirror.addClass (h : Mirror c slots m r) {f : FrameId} {visible : Visible}
    (hv : View m.store.frames m.globals slots f l visible) {methods : List Function}
    (hfits : Function.FitsEach c (["this"] :: l) methods) (name : String) (k : Option ClassId) :
    Mirror c slots (m.withHeap (m.store.toHeap.addClass ⟨name, k, .ofList f methods⟩).2)
      { r with heap := (r.heap.addClass ⟨name, k, .ofList visible methods⟩).2 } := by
  have hhome : ∀ g ∈ methods, Homed c m.store.frames m.globals slots .ofInstance
      ⟨g, f, g.name.lexeme == initializerName⟩ visible := fun g hg => ⟨l, hv, hfits.mem hg, fun _ => rfl⟩
  have hplaced : ∀ (x : String) (method : Closure FrameId), (Methods.ofList f methods)[x]? = some method →
      method.Placed c m.store.frames m.globals .ofInstance := by
    intro x method hx
    obtain ⟨g, hg, hdeclared, hframe⟩ := Methods.mem_of_ofList hx
    exact ⟨l, hframe ▸ h.linked hv, hdeclared ▸ hfits.mem hg⟩
  exact h.inHeap (h.sound.store.addClass hplaced) (h.heap.addClass ⟨rfl, rfl, Methods.matches_ofList hhome⟩)

section Declarations

variable (h : Mirror c slots m r) (hs : Stands m slots place l)

include h hs

/-- The name is declared before the function is made, so that the function sees itself. -/
theorem agree_declareFunction {f : Function} (hx : l.Free f.name.lexeme) (hf : f.Fits c (l.declare [f.name.lexeme])) :
    Agree c slots m r (LoxLang.Run.declareFunction f) (declareFunction place f) [f.name.lexeme]
      fun _ place m slots => Stands m slots place (l.declare [f.name.lexeme]) := by
  have hlt := hs.within.linked.lt h.sound.store.within
  have hhas := (has_define (v := .nil) hlt f.name.lexeme).mpr (.inr ⟨rfl, rfl⟩)
  have hdeclare := declare_apply place f.name.lexeme .nil r
  obtain ⟨slots', hp, h₁, hs₁⟩ := h.declare hs hx .nil
  generalize r.declare place f.name.lexeme .nil = declared at hdeclare h₁ hs₁
  obtain ⟨place₁, r₁⟩ := declared
  have hhome : Closure.Matches (Homed c _ m.globals slots' []) ⟨f, m.current, false⟩ ⟨f, place₁.visible, false⟩ :=
    ⟨rfl, rfl, _, hs₁.view, hf, nofun⟩
  have h₂ := h₁.inHeap (h₁.sound.store.addClosure (h₁.placed hhome.home)) (h₁.heap.addClosure hhome)
  have hs₂ := hs₁.later h₁.sound (Machine.follows_store h₁.sound h₂.sound.store (.refl _ _)) (List.prefix_refl _)
  obtain ⟨h₃, hs₃⟩ := h₂.redefine hs₂ hhas (.function r₁.heap.closures.size)
  have hsize : r₁.heap.closures.size = m.store.closures.size := size_of_rel h₁.heap.closures
  have hdefine := define_define m.store.frames m.current f.name.lexeme .nil (.function m.store.closures.size)
  refine .of_ok (a := ()) (keeps_declareFunction h.sound hs.within hf) ?_ ?_ hp h₃ hs₃
  · rw [hsize]
    exact congrArg (EStateM.Result.ok ()) (congrArg (LoxLang.Machine.withFrames _) hdefine.symm)
  · exact Halting.bind_of_ok hdeclare

/-- The class has no value yet when its superclass and its methods are declared. -/
theorem agree_declareClass {name : Token} {superclass : Option NameUse} {k : Option ClassId}
    (hk : k.isSome = superclass.isSome) (hx : l.Free name.lexeme) {methods : List Function}
    (hfits : Function.FitsEach c ((l.declare [name.lexeme]).ofClass superclass) methods) :
    Agree c slots m r (LoxLang.Run.declareClass name k methods) (declareClass place name k methods) [name.lexeme]
      fun _ place m slots => Stands m slots place (l.declare [name.lexeme]) := by
  have hlt := hs.within.linked.lt h.sound.store.within
  have hhas := (has_define (v := .nil) hlt name.lexeme).mpr (.inr ⟨rfl, rfl⟩)
  have hdeclare := declare_apply place name.lexeme .nil r
  obtain ⟨slots', hp, h₁, hs₁⟩ := h.declare hs hx .nil
  generalize r.declare place name.lexeme .nil = declared at hdeclare h₁ hs₁
  obtain ⟨place₁, r₁⟩ := declared
  have hsize : r₁.heap.classes.size = m.store.classes.size := size_of_rel h₁.heap.classes
  have hkeeps := keeps_declareClass h.sound hs.within hk hfits
  cases k with
  | none =>
    cases superclass with
    | some u => cases hk
    | none =>
      have h₂ := h₁.addClass hs₁.view hfits name.lexeme none
      have hs₂ := hs₁.later h₁.sound (Machine.follows_store h₁.sound h₂.sound.store (.refl _ _)) (List.prefix_refl _)
      obtain ⟨h₃, hs₃⟩ := h₂.redefine hs₂ hhas (.cls r₁.heap.classes.size)
      refine .of_ok (a := ()) hkeeps ?_ (Halting.bind_of_ok hdeclare) hp h₃ hs₃
      rw [hsize]
      rfl
  | some k =>
    cases superclass with
    | none => cases hk
    | some u =>
      obtain ⟨slots'', hp', h₂, hsuper⟩ := h₁.addNamed hs₁.view "super" (.cls k)
      have h₃ := h₂.addClass hsuper hfits name.lexeme (some k)
      have hgrows := grows_add (m.store.frames.define m.current name.lexeme .nil) (some m.current)
        ((∅ : Names).insert "super" (.cls k)) m.current
      have hs₃ := hs₁.later h₁.sound (Machine.follows_store h₁.sound h₃.sound.store hgrows) hp'
      obtain ⟨h₄, hs₄⟩ := h₃.redefine hs₃ (hgrows.keeps (lt_of_has hhas) hhas) (.cls r₁.heap.classes.size)
      refine .of_ok (a := ()) hkeeps ?_ (Halting.bind_of_ok hdeclare) (hp.trans hp') h₄ hs₄
      rw [hsize]
      rfl

end Declarations

end LoxLang.Lexical
