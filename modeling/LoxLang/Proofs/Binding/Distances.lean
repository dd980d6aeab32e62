import LoxLang.Proofs.Binding.Fits
import LoxLang.Proofs.Grammar.Sources
import LoxLang.Proofs.Grammar.Statements

/-! The table of distances, read off the tree: for each use, in the order of the walk, the names that the local scopes
around it have by then. -/

namespace LoxLang

open Walk

mutual

/-- The uses in the order in which they are walked: an assignment comes behind its value, and the value of a field before
the object. -/
def Expr.walked : Expr → List Use
  | .literal _ => []
  | .grouping inner => inner.walked
  | .unary _ operand => operand.walked
  | .binary left _ right | .logical left _ right => left.walked ++ right.walked
  | .read id name => [⟨.read, id, name⟩]
  | .assign id name value => value.walked ++ [⟨.assign, id, name⟩]
  | .call callee _ arguments => callee.walked ++ Expr.walkedEach arguments
  | .get object _ => object.walked
  | .set object _ value => value.walked ++ object.walked
  | .self id keyword => [⟨.self, id, keyword⟩]
  | .inherited id keyword _ => [⟨.inherited, id, keyword⟩]

def Expr.walkedEach : List Expr → List Use
  | [] => []
  | e :: rest => e.walked ++ Expr.walkedEach rest

end

def Expr.walkedOption : Option Expr → List Use
  | none => []
  | some e => e.walked

/-- A use, and the names declared before it in each local scope around it, the innermost first. -/
structure Occurrence where
  use : Use
  around : Layout

/-- A use, where a declaration may be under way: for a read that does not count. -/
def Use.at (l : Layout) (underWay : List String) (u : Use) : Occurrence :=
  ⟨u, if u.kind = .read then l else l.declare underWay⟩

mutual

/-- The names that a statement leaves declared in the scope around it. -/
def Stmt.leaves : Stmt → List String
  | .var name _ | .classDecl name _ _ => [name.lexeme]
  | .function f => [f.name.lexeme]
  | .branch _ yes no => Stmt.leavesOption no ++ yes.leaves
  | .loop _ body => body.leaves
  | .expression _ | .print _ | .block _ | .ret _ _ => []

def Stmt.leavesOption : Option Stmt → List String
  | none => []
  | some s => s.leaves

end

mutual

/-- The uses in a statement, in the order of the walk. -/
def Stmt.occurrences (l : Layout) : Stmt → List Occurrence
  | .expression e | .print e => e.walked.map (Use.at l [])
  | .var name initial => (Expr.walkedOption initial).map (Use.at l [name.lexeme])
  | .block body => Stmt.occurrencesEach ([] :: l) body
  | .branch condition yes no =>
    condition.walked.map (Use.at l []) ++ yes.occurrences l ++ Stmt.occurrencesOption (l.declare yes.leaves) no
  | .loop condition body => condition.walked.map (Use.at l []) ++ body.occurrences l
  | .function f => f.occurrences (l.declare [f.name.lexeme])
  | .ret _ value => (Expr.walkedOption value).map (Use.at l [])
  | .classDecl name superclass methods =>
    (superclass.toList.map fun u => u.use.at (l.declare [name.lexeme]) []) ++
      Function.occurrencesEach ((l.declare [name.lexeme]).ofClass superclass) methods

def Stmt.occurrencesEach (l : Layout) : List Stmt → List Occurrence
  | [] => []
  | s :: rest => s.occurrences l ++ Stmt.occurrencesEach (l.declare s.leaves) rest

def Stmt.occurrencesOption (l : Layout) : Option Stmt → List Occurrence
  | none => []
  | some s => s.occurrences l

/-- Parameters and body share one scope. -/
def Function.occurrences (l : Layout) : Function → List Occurrence
  | .mk _ parameters body => Stmt.occurrencesEach (parameters.map Token.lexeme :: l) body

def Function.occurrencesEach (l : Layout) : List Function → List Occurrence
  | [] => []
  | f :: rest => f.occurrences l ++ Function.occurrencesEach l rest

end

namespace Occurrence

/-- How many scopes are between the use and the nearest that has its name. -/
def distance? (o : Occurrence) : Option Nat := o.around.hops? o.use.token.lexeme

/-- The table with the entry of one more use. -/
def note (known : Bindings) (o : Occurrence) : Bindings :=
  match o.distance? with
  | some d => known.insert o.use.id d
  | none => known

variable {known : Bindings} {o : Occurrence} {os : List Occurrence} {id : NodeId}

theorem note_self (h : known[o.use.id]? = none) : (note known o)[o.use.id]? = o.distance? := by
  unfold note
  split
  · rename_i d hd
    rw [hd, Std.ExtTreeMap.getElem?_insert_self]
  · rename_i hd
    rw [h, hd]

theorem note_other (h : o.use.id ≠ id) : (note known o)[id]? = known[id]? := by
  unfold note
  split
  · simp [Std.ExtTreeMap.getElem?_insert, h]
  · rfl

theorem foldl_note_other (h : id ∉ os.map fun o => o.use.id) : (os.foldl note known)[id]? = known[id]? := by
  induction os generalizing known with
  | nil => rfl
  | cons o rest ih =>
    rw [List.map_cons, List.mem_cons, not_or] at h
    rw [List.foldl_cons, ih h.2, note_other (Ne.symm h.1)]

/-- Where the node ids are distinct each use has its own entry. -/
theorem foldl_note_self (hids : (os.map fun o => o.use.id).Nodup) (ho : o ∈ os) (h : ∀ o ∈ os, known[o.use.id]? = none) :
    (os.foldl note known)[o.use.id]? = o.distance? := by
  induction os generalizing known with
  | nil => cases ho
  | cons first rest ih =>
    rw [List.map_cons, List.nodup_cons] at hids
    rw [List.foldl_cons]
    rcases List.mem_cons.mp ho with rfl | ho
    · rw [foldl_note_other hids.1, note_self (h _ List.mem_cons_self)]
    · refine ih hids.2 ho fun o' ho' => ?_
      rw [note_other fun hsame => hids.1 (hsame ▸ List.mem_map_of_mem (f := fun o : Occurrence => o.use.id) ho')]
      exact h _ (List.mem_cons_of_mem _ ho')

end Occurrence

open Occurrence (note)

variable {l : Layout} {own : Option String} {around : Surroundings} {w w' : Walk}

/-- A walk adds to the table the entries of some uses. -/
def Walk.Notes (os : List Occurrence) (w w' : Walk) : Prop := w'.bindings = os.foldl note w.bindings

theorem Walk.Notes.trans {os os' : List Occurrence} {w'' : Walk} (h : Notes os w w') (h' : Notes os' w' w'') :
    Notes (os ++ os') w w'' := by
  unfold Notes at *
  rw [h', h, List.foldl_append]

/-- The names in the scopes of a walk, the one under way among them, if there is one. -/
theorem Shows.distance_at (h : Shows w.scopes own l) {k : UseKind} (hk : k ≠ .read) (id : NodeId) (t : Token) :
    Walk.distance? t.lexeme w.scopes = (Use.at l own.toList ⟨k, id, t⟩).distance? := by
  rw [h.distance, Occurrence.distance?, Use.at, if_neg hk]
  generalize w.scopes = scopes at h
  cases h with
  | settled h => simp
  | declaring h hx =>
    simp only [Option.some.injEq, Option.toList_some, Layout.declare, Layout.hops?_cons, List.singleton_append, List.mem_cons]
    split
    · rename_i hsame
      rw [if_pos (.inl hsame.symm)]
    · rename_i hother
      simp [Ne.symm hother]

theorem notes_use (h : Shows w.scopes own l) (k : UseKind) (hk : k ≠ .read) (id : NodeId) (t : Token) :
    Notes [Use.at l own.toList ⟨k, id, t⟩] w (w.use id t.lexeme) := by
  unfold Notes Walk.use
  rw [h.distance_at hk id t, List.foldl_cons, List.foldl_nil, note]
  cases (Use.at l own.toList ⟨k, id, t⟩).distance? <;> rfl

/-- Inside its own initial value a name is looked up from the next scope on, and the variable is not found. -/
theorem notes_read (h : Shows w.scopes own l) (id : NodeId) (t : Token) (hclean : (w.read id t).faults = []) :
    Notes [Use.at l own.toList ⟨.read, id, t⟩] w (w.read id t) := by
  have hat : (Use.at l own.toList ⟨.read, id, t⟩).distance? = l.hops? t.lexeme := rfl
  have hi := h.isInitializing t.lexeme
  unfold Notes
  rw [List.foldl_cons, List.foldl_nil, note, hat]
  unfold Walk.read at hclean ⊢
  by_cases hown : own = some t.lexeme
  · subst hown
    rw [decide_eq_true rfl] at hi
    rw [if_pos hi] at hclean ⊢
    rw [h.hops_of_own]
    cases hd : Walk.distance? t.lexeme w.scopes.tail with
    | some d => rfl
    | none =>
      rw [hd] at hclean
      dsimp only at hclean ⊢
      split at hclean
      · rename_i hg
        rw [if_pos hg]
        rfl
      · simp [fault] at hclean
  · rw [decide_eq_false hown] at hi
    rw [if_neg (by simp [hi])]
    unfold Walk.use
    rw [h.distance, if_neg hown]
    cases l.hops? t.lexeme <;> rfl

theorem notes_self (h : Shows w.scopes own l) (id : NodeId) (t : Token) (hclean : (w.self around id t).faults = []) :
    Notes [Use.at l own.toList ⟨.self, id, t⟩] w (w.self around id t) := by
  unfold Walk.self at hclean ⊢
  split at hclean
  · simp [fault] at hclean
  · exact notes_use h .self nofun id t

theorem notes_inherited (h : Shows w.scopes own l) (id : NodeId) (t : Token)
    (hclean : (w.inherited around id t).faults = []) :
    Notes [Use.at l own.toList ⟨.inherited, id, t⟩] w (w.inherited around id t) := by
  unfold Walk.inherited at hclean ⊢
  split at hclean
  · simp [fault] at hclean
  · simp [fault] at hclean
  · exact notes_use h .inherited nofun id t

mutual

/-- The induction is on the tree; the scopes are the same before each part. -/
theorem Expr.notes_resolve : ∀ (e : Expr) (w : Walk), Shows w.scopes own l → (e.resolve around w).faults = [] →
    Notes (e.walked.map (Use.at l own.toList)) w (e.resolve around w)
  | .literal _, _, _, _ => rfl
  | .grouping inner, w, hw, h => inner.notes_resolve w hw h
  | .unary _ operand, w, hw, h => operand.notes_resolve w hw h
  | .binary left _ right, w, hw, h | .logical left _ right, w, hw, h => by
    have hleft := left.notes_resolve w hw ((right.adds_resolve around _).clean h)
    rw [Expr.walked, List.map_append]
    exact hleft.trans (right.notes_resolve _ ((left.scopes_resolve around w).symm ▸ hw) h)
  | .read id name, _, hw, h => notes_read hw id name h
  | .assign id name value, w, hw, h => by
    have hvalue := value.notes_resolve w hw ((adds_use .assign name id name.lexeme _).clean h)
    rw [Expr.walked, List.map_append]
    exact hvalue.trans (notes_use ((value.scopes_resolve around w).symm ▸ hw) .assign nofun id name)
  | .call callee _ arguments, w, hw, h => by
    have hcallee := callee.notes_resolve w hw ((Expr.adds_resolveEach around arguments _).clean h)
    rw [Expr.walked, List.map_append]
    exact hcallee.trans (Expr.notes_resolveEach arguments _ ((callee.scopes_resolve around w).symm ▸ hw) h)
  | .get object _, w, hw, h => object.notes_resolve w hw h
  | .set object _ value, w, hw, h => by
    have hvalue := value.notes_resolve w hw ((object.adds_resolve around _).clean h)
    rw [Expr.walked, List.map_append]
    exact hvalue.trans (object.notes_resolve _ ((value.scopes_resolve around w).symm ▸ hw) h)
  | .self id keyword, _, hw, h => notes_self hw id keyword h
  | .inherited id keyword _, _, hw, h => notes_inherited hw id keyword h

theorem Expr.notes_resolveEach : ∀ (es : List Expr) (w : Walk), Shows w.scopes own l →
    (Expr.resolveEach around es w).faults = [] →
      Notes ((Expr.walkedEach es).map (Use.at l own.toList)) w (Expr.resolveEach around es w)
  | [], _, _, _ => rfl
  | e :: rest, w, hw, h => by
    have hfirst := e.notes_resolve w hw ((Expr.adds_resolveEach around rest _).clean h)
    rw [Expr.walkedEach, List.map_append]
    exact hfirst.trans (Expr.notes_resolveEach rest _ ((e.scopes_resolve around w).symm ▸ hw) h)

end

theorem Expr.notes_resolveOption (e : Option Expr) (hw : Shows w.scopes own l)
    (h : (Expr.resolveOption around e w).faults = []) :
    Notes ((Expr.walkedOption e).map (Use.at l own.toList)) w (Expr.resolveOption around e w) := by
  cases e with
  | none => rfl
  | some e => exact e.notes_resolve w hw h

/-- At top level no scope has the name under way. -/
theorem Use.at_own (l : Layout) (x : String) : Use.at l (l.own x).toList = Use.at l [x] := by
  cases l <;> rfl

theorem bindings_declare (t : Token) (w : Walk) : (w.declare t).bindings = w.bindings := by
  unfold declare
  split
  · rfl
  · split <;> rfl

theorem bindings_define (t : Token) (w : Walk) : (w.define t).bindings = w.bindings := by
  unfold define
  split <;> rfl

theorem bindings_parameters (parameters : List Token) (w : Walk) :
    (parameters.foldl (fun w t => (w.declare t).define t) w).bindings = w.bindings := by
  induction parameters generalizing w with
  | nil => rfl
  | cons t rest ih => rw [List.foldl_cons, ih, bindings_define, bindings_declare]

theorem bindings_ret (t : Token) (valued : Bool) (w : Walk) : (w.ret around t valued).bindings = w.bindings := by
  unfold ret
  dsimp only
  split <;> split <;> rfl

theorem notes_inScope {os : List Occurrence} {names : List String} {walk : Walk → Walk}
    (h : Notes os { w with scopes := names.foldl (fun (s : Scope) name => s.insert name .defined) ∅ :: w.scopes }
      (walk { w with scopes := names.foldl (fun (s : Scope) name => s.insert name .defined) ∅ :: w.scopes })) :
    Notes os w (w.inScope names walk) := h

/-- A walk behind a declaration. -/
theorem Walk.Notes.declared {os : List Occurrence} {t : Token} (h : Notes os ((w.declare t).define t) w') :
    Notes os w w' := by
  unfold Notes at *
  rw [h, bindings_define, bindings_declare]

/-- The superclass is not the class itself, so it is looked up among what is declared. -/
theorem NameUse.notes_resolveSuperclass (u : NameUse) (cls : Token) (hw : Settled w.scopes l)
    (h : (u.resolveSuperclass cls w).faults = []) :
    Notes [u.use.at l []] w (u.resolveSuperclass cls w) ∧ (u.resolveSuperclass cls w).scopes = w.scopes := by
  refine ⟨?_, congrArg Prod.fst (u.known_resolveSuperclass cls w)⟩
  unfold NameUse.resolveSuperclass at h ⊢
  dsimp only at h ⊢
  split at h
  · have hfaults := (adds_read .read u.id u.name (w.fault u.name .inheritsFromItself)).clean h
    simp [fault] at hfaults
  · rename_i hne
    rw [if_neg hne]
    exact notes_read (.settled hw) u.id u.name h

mutual

/-- The induction is on the tree: a walk without faults adds the entries of the occurrences, and ends with the scopes that
show what the statement leaves declared. -/
theorem Stmt.notes_resolve : ∀ (s : Stmt) {l : Layout} {around : Surroundings} (w : Walk), Settled w.scopes l →
    (s.resolve around w).faults = [] →
      Notes (s.occurrences l) w (s.resolve around w) ∧ Settled (s.resolve around w).scopes (l.declare s.leaves)
  | .expression e, _, around, w, hw, h | .print e, _, around, w, hw, h =>
    ⟨e.notes_resolve w (.settled hw) h, settled_declare_nil hw (e.scopes_resolve around w)⟩
  | .var name initial, l, around, w, hw, h => by
    have hinitial := (adds_define name _).clean h
    obtain ⟨-, hshows⟩ := declare_shows hw ((Expr.adds_resolveOption around initial _).clean hinitial)
    have hnotes := Expr.notes_resolveOption initial hshows hinitial
    rw [Use.at_own] at hnotes
    refine ⟨?_, define_settled ?_⟩
    · unfold Notes at *
      rw [Stmt.resolve, bindings_define, hnotes, bindings_declare, Stmt.occurrences]
    · rw [Expr.scopes_resolveOption]
      exact hshows
  | .block body, l, around, w, hw, h => by
    obtain ⟨hnotes, names, hsettled⟩ := Stmt.notes_resolveEach body _ (settled_open hw []) h
    exact ⟨hnotes, settled_declare_nil (settled_tail hsettled) rfl⟩
  | .branch condition yes no, l, around, w, hw, h => by
    have hyesClean := (Stmt.adds_resolveOption around no _).clean h
    have hcondition := condition.notes_resolve w (.settled hw) ((yes.adds_resolve around _).clean hyesClean)
    obtain ⟨hyes, hyesSettled⟩ := yes.notes_resolve _ ((condition.scopes_resolve around w).symm ▸ hw) hyesClean
    obtain ⟨hno, hnoSettled⟩ := Stmt.notes_resolveOption no _ hyesSettled h
    rw [← Layout.declare_append] at hnoSettled
    exact ⟨(hcondition.trans hyes).trans hno, hnoSettled⟩
  | .loop condition body, l, around, w, hw, h => by
    have hcondition := condition.notes_resolve w (.settled hw) ((body.adds_resolve around _).clean h)
    obtain ⟨hbody, hsettled⟩ := body.notes_resolve _ ((condition.scopes_resolve around w).symm ▸ hw) h
    exact ⟨hcondition.trans hbody, hsettled⟩
  | .function f, l, around, w, hw, h => by
    obtain ⟨-, hshows⟩ := declare_shows hw (clean_declare ((f.adds_resolve .function around _).clean h))
    obtain ⟨hnotes, hsettled⟩ := f.notes_resolve .function _ (define_settled hshows) h
    exact ⟨hnotes.declared, hsettled⟩
  | .ret keyword value, l, around, w, hw, h => by
    have hscopes := scopes_ret around keyword value.isSome w
    have hnotes := Expr.notes_resolveOption value (.settled (hscopes.symm ▸ hw)) h
    refine ⟨?_, settled_declare_nil hw ((Expr.scopes_resolveOption around value _).trans hscopes)⟩
    unfold Notes at *
    rw [bindings_ret] at hnotes
    exact hnotes
  | .classDecl name none methods, l, around, w, hw, h => by
    obtain ⟨-, hshows⟩ := declare_shows hw (clean_declare
      ((adds_inScope ["this"] (Function.adds_resolveMethods ⟨around.function, .base⟩ methods) _).clean h))
    obtain ⟨hnotes, hsettled⟩ := Function.notes_resolveMethods methods _ (settled_open (define_settled hshows) ["this"]) h
    exact ⟨(notes_inScope hnotes).declared, settled_tail hsettled⟩
  | .classDecl name (some u) methods, l, around, w, hw, h => by
    have hclause := (adds_inScope ["super"]
      (fun w => adds_inScope ["this"] (Function.adds_resolveMethods ⟨around.function, .derived⟩ methods) w) _).clean h
    obtain ⟨-, hshows⟩ := declare_shows hw (clean_declare ((u.adds_resolveSuperclass name _).clean hclause))
    have hdefined := define_settled hshows
    obtain ⟨hsuperclass, hscopes⟩ := u.notes_resolveSuperclass name hdefined hclause
    obtain ⟨hnotes, hsettled⟩ := Function.notes_resolveMethods methods _
      (settled_open (settled_open (hscopes.symm ▸ hdefined) ["super"]) ["this"]) h
    exact ⟨(hsuperclass.trans (notes_inScope (notes_inScope hnotes))).declared, settled_tail (settled_tail hsettled)⟩

theorem Stmt.notes_resolveEach : ∀ (body : List Stmt) {l : Layout} {around : Surroundings} (w : Walk),
    Settled w.scopes l → (Stmt.resolveEach around body w).faults = [] →
      Notes (Stmt.occurrencesEach l body) w (Stmt.resolveEach around body w) ∧
        ∃ names, Settled (Stmt.resolveEach around body w).scopes (l.declare names)
  | [], _, _, _, hw, _ => ⟨rfl, [], settled_declare_nil hw rfl⟩
  | s :: rest, l, around, w, hw, h => by
    obtain ⟨hs, hsSettled⟩ := s.notes_resolve w hw ((Stmt.adds_resolveEach around rest _).clean h)
    obtain ⟨hrest, names, hrestSettled⟩ := Stmt.notes_resolveEach rest _ hsSettled h
    rw [← Layout.declare_append] at hrestSettled
    exact ⟨hs.trans hrest, _, hrestSettled⟩

theorem Stmt.notes_resolveOption : ∀ (s : Option Stmt) {l : Layout} {around : Surroundings} (w : Walk),
    Settled w.scopes l → (Stmt.resolveOption around s w).faults = [] →
      Notes (Stmt.occurrencesOption l s) w (Stmt.resolveOption around s w) ∧
        Settled (Stmt.resolveOption around s w).scopes (l.declare (Stmt.leavesOption s))
  | none, _, _, _, hw, _ => ⟨rfl, settled_declare_nil hw rfl⟩
  | some s, _, _, w, hw, h => s.notes_resolve w hw h

theorem Function.notes_resolve : ∀ (f : Function) (kind : FunctionKind) {l : Layout} {around : Surroundings} (w : Walk),
    Settled w.scopes l → (f.resolve kind around w).faults = [] →
      Notes (f.occurrences l) w (f.resolve kind around w) ∧ Settled (f.resolve kind around w).scopes l
  | .mk name parameters body, kind, l, around, w, hw, h => by
    obtain ⟨-, -, hsettled⟩ := parameters_settled parameters _ [] (settled_open hw [])
      ((Stmt.adds_resolveEach ⟨kind, around.cls⟩ body _).clean h)
    have hopen : Settled _ (parameters.map Token.lexeme :: l) := hsettled.congr fun x => by simp
    obtain ⟨hnotes, names, hend⟩ := Stmt.notes_resolveEach body _ hopen h
    refine ⟨?_, settled_tail hend⟩
    unfold Notes at *
    rw [bindings_parameters] at hnotes
    exact hnotes

theorem Function.notes_resolveMethods : ∀ (fs : List Function) {l : Layout} {around : Surroundings} (w : Walk),
    Settled w.scopes l → (Function.resolveMethods around fs w).faults = [] →
      Notes (Function.occurrencesEach l fs) w (Function.resolveMethods around fs w) ∧
        Settled (Function.resolveMethods around fs w).scopes l
  | [], _, _, _, hw, _ => ⟨rfl, hw⟩
  | f :: rest, l, around, w, hw, h => by
    obtain ⟨hf, hfSettled⟩ := f.notes_resolve _ w hw ((Function.adds_resolveMethods around rest _).clean h)
    obtain ⟨hrest, hrestSettled⟩ := Function.notes_resolveMethods rest _ hfSettled h
    exact ⟨hf.trans hrest, hrestSettled⟩

end

mutual

theorem Expr.walked_perm : ∀ e : Expr, e.walked.Perm e.uses
  | .literal _ | .read _ _ | .self _ _ | .inherited _ _ _ => .refl _
  | .grouping inner => inner.walked_perm
  | .unary _ operand => operand.walked_perm
  | .binary left _ right | .logical left _ right => left.walked_perm.append right.walked_perm
  | .assign _ _ value => (List.perm_append_singleton _ _).trans (value.walked_perm.cons _)
  | .call callee _ arguments => callee.walked_perm.append (Expr.walkedEach_perm arguments)
  | .get object _ => object.walked_perm
  | .set object _ value => List.perm_append_comm.trans (object.walked_perm.append value.walked_perm)

theorem Expr.walkedEach_perm : ∀ es : List Expr, (Expr.walkedEach es).Perm (Expr.usesEach es)
  | [] => .refl _
  | e :: rest => e.walked_perm.append (Expr.walkedEach_perm rest)

end

theorem Expr.walkedOption_perm (e : Option Expr) : (Expr.walkedOption e).Perm (Expr.usesOption e) := by
  cases e with
  | none => exact .refl _
  | some e => exact e.walked_perm

theorem map_use_at (l : Layout) (underWay : List String) (us : List Use) :
    (us.map (Use.at l underWay)).map Occurrence.use = us := by
  rw [List.map_map]
  exact List.map_id us

mutual

/-- Each use of a program occurs once. -/
theorem Stmt.uses_occurrences : ∀ (s : Stmt) (l : Layout), ((s.occurrences l).map Occurrence.use).Perm s.uses
  | .expression e, l | .print e, l => by
    rw [Stmt.occurrences, map_use_at]
    exact e.walked_perm
  | .var _ initial, l => by
    rw [Stmt.occurrences, map_use_at]
    exact Expr.walkedOption_perm initial
  | .block body, l => Stmt.uses_occurrencesEach body _
  | .branch condition yes no, l => by
    rw [Stmt.occurrences, List.map_append, List.map_append, map_use_at]
    exact (condition.walked_perm.append (yes.uses_occurrences l)).append (Stmt.uses_occurrencesOption no _)
  | .loop condition body, l => by
    rw [Stmt.occurrences, List.map_append, map_use_at]
    exact condition.walked_perm.append (body.uses_occurrences l)
  | .function f, l => f.uses_occurrences _
  | .ret _ value, l => by
    rw [Stmt.occurrences, map_use_at]
    exact Expr.walkedOption_perm value
  | .classDecl name superclass methods, l => by
    rw [Stmt.occurrences, List.map_append, Stmt.uses]
    refine List.Perm.append ?_ (Function.uses_occurrencesEach methods _)
    cases superclass <;> exact .refl _

theorem Stmt.uses_occurrencesEach : ∀ (body : List Stmt) (l : Layout),
    ((Stmt.occurrencesEach l body).map Occurrence.use).Perm (Stmt.usesEach body)
  | [], _ => .refl _
  | s :: rest, l => by
    rw [Stmt.occurrencesEach, List.map_append]
    exact (s.uses_occurrences l).append (Stmt.uses_occurrencesEach rest _)

theorem Stmt.uses_occurrencesOption : ∀ (s : Option Stmt) (l : Layout),
    ((Stmt.occurrencesOption l s).map Occurrence.use).Perm (Stmt.usesOption s)
  | none, _ => .refl _
  | some s, l => s.uses_occurrences l

theorem Function.uses_occurrences : ∀ (f : Function) (l : Layout), ((f.occurrences l).map Occurrence.use).Perm f.uses
  | .mk _ _ body, _ => Stmt.uses_occurrencesEach body _

theorem Function.uses_occurrencesEach : ∀ (fs : List Function) (l : Layout),
    ((Function.occurrencesEach l fs).map Occurrence.use).Perm (Function.usesEach fs)
  | [], _ => .refl _
  | f :: rest, l => by
    rw [Function.occurrencesEach, List.map_append]
    exact (f.uses_occurrences l).append (Function.uses_occurrencesEach rest l)

end

/-- The scope at a place has the name, and none further in has. -/
def Layout.Nearest (l : Layout) (x : String) (d : Nat) : Prop :=
  (∃ scope, l[d]? = some scope ∧ x ∈ scope) ∧ ∀ j < d, ∀ scope, l[j]? = some scope → x ∉ scope

theorem Layout.hops?_eq_some {x : String} {d : Nat} : l.hops? x = some d ↔ l.Nearest x d := by
  rw [hops?, List.findIdx?_eq_some_iff_getElem, Nearest]
  constructor
  · rintro ⟨hd, hmem, hbefore⟩
    refine ⟨⟨l[d], List.getElem?_eq_getElem hd, by simpa using hmem⟩, fun j hj scope hscope => ?_⟩
    obtain ⟨hj', rfl⟩ := List.getElem?_eq_some_iff.mp hscope
    simpa using hbefore j hj
  · rintro ⟨⟨scope, hscope, hmem⟩, hbefore⟩
    obtain ⟨hd, rfl⟩ := List.getElem?_eq_some_iff.mp hscope
    exact ⟨hd, by simpa using hmem, fun j hj => by simpa using hbefore j hj _ (List.getElem?_eq_getElem (hj.trans hd))⟩

theorem Layout.isSome_hops? {x : String} : (l.hops? x).isSome ↔ ∃ scope ∈ l, x ∈ scope := by
  simp [hops?, List.findIdx?_isSome]

/-- The table of a program that is accepted has an entry for a use just if a local scope around it has the name by then, and
the entry is the number of scopes from the innermost out to the nearest that has it. A read does not count the variable in
whose initial value it stands. All uses in the program occur so, and nothing else has an entry. Programs that are read from
a source give each use a node id of its own. -/
theorem distances_lexical :
    (∀ (globals : Std.ExtTreeSet String) (statements : List Stmt) (known : Bindings),
      resolve globals statements = .ok known → ((Stmt.usesEach statements).map Use.id).Nodup →
        (∀ o ∈ Stmt.occurrencesEach [] statements,
          (known[o.use.id]?.isSome ↔ ∃ scope ∈ o.around, o.use.token.lexeme ∈ scope) ∧
          ∀ d, known[o.use.id]? = some d ↔ o.around.Nearest o.use.token.lexeme d) ∧
        ((Stmt.occurrencesEach [] statements).map Occurrence.use).Perm (Stmt.usesEach statements) ∧
        ∀ id, known[id]?.isSome → ∃ u ∈ Stmt.usesEach statements, u.id = id) ∧
    ∀ lenient source nextId statements, (Parsed.ofSource (Parsed.program lenient) source nextId).result = .ok statements →
      ((Stmt.usesEach statements).map Use.id).Nodup := by
  refine ⟨fun globals statements known h hids => ?_, fun lenient source nextId statements h => ?_⟩
  · have huses := Stmt.uses_occurrencesEach statements []
    obtain ⟨hclean, hknown⟩ := walk_of_resolve h
    obtain ⟨hnotes, -⟩ := Stmt.notes_resolveEach statements (.start globals) List.Forall₂.nil hclean
    have hos : ((Stmt.occurrencesEach [] statements).map fun o => o.use.id).Nodup := by
      have hperm := huses.map Use.id
      rw [List.map_map] at hperm
      exact hperm.nodup_iff.mpr hids
    refine ⟨fun o ho => ?_, huses, fun id hid => ?_⟩
    · have hentry : known[o.use.id]? = o.around.hops? o.use.token.lexeme := by
        rw [← hknown, hnotes]
        exact Occurrence.foldl_note_self hos ho fun _ _ => Std.ExtTreeMap.getElem?_empty
      rw [hentry]
      exact ⟨Layout.isSome_hops?, fun d => Layout.hops?_eq_some⟩
    · by_contra hnone
      push Not at hnone
      rw [resolve_elsewhere h fun hm => ?_] at hid
      · cases hid
      · obtain ⟨u, hu, rfl⟩ := List.mem_map.mp hm
        exact hnone u hu rfl
  · exact (Parsed.made_of_program.2 statements h).uses.nodup

/-- A variable of a block, read in the initial value of another of the same name, and assigned in a function from its
parameter. -/
theorem distances_lexical_shadowed :
    let x : Token := ⟨.identifier, "x", 1⟩
    let y : Token := ⟨.identifier, "y", 1⟩
    let f : Function := .mk ⟨.identifier, "f", 1⟩ [y] [.expression (.assign 1 x (.read 2 y))]
    let statements := [Stmt.block [.var x none, .block [.var x (some (.read 0 x)), .function f]]]
    ∃ known, resolve ∅ statements = .ok known ∧ known[0]? = some 1 ∧ known[1]? = some 1 ∧ known[2]? = some 0 ∧
      ∀ id, known[id]?.isSome → id < 3 := by
  intro x y f statements
  have hoccurrences : Stmt.occurrencesEach [] statements =
    [⟨⟨.read, 0, x⟩, [[], ["x"]]⟩, ⟨⟨.read, 2, y⟩, [["y"], ["f", "x"], ["x"]]⟩,
      ⟨⟨.assign, 1, x⟩, [["y"], ["f", "x"], ["x"]]⟩] := rfl
  have hids : ((Stmt.usesEach statements).map Use.id).Nodup := by decide
  have hbelow : ∀ u ∈ Stmt.usesEach statements, u.id < 3 := by decide
  have haccepted : (resolve ∅ statements).isOk = true := by decide +kernel
  cases h : resolve ∅ statements with
  | error faults =>
    rw [h] at haccepted
    cases haccepted
  | ok known =>
    obtain ⟨hentries, -, hothers⟩ := distances_lexical.1 ∅ statements known h hids
    rw [hoccurrences] at hentries
    simp only [List.forall_mem_cons] at hentries
    obtain ⟨⟨-, hread⟩, ⟨-, hparameter⟩, ⟨-, hassign⟩, -⟩ := hentries
    refine ⟨known, rfl, (hread 1).mpr ?_, (hassign 1).mpr ?_, (hparameter 0).mpr ?_, fun id hid => ?_⟩
    · exact Layout.hops?_eq_some.mp rfl
    · exact Layout.hops?_eq_some.mp rfl
    · exact Layout.hops?_eq_some.mp rfl
    · obtain ⟨u, hu, rfl⟩ := hothers id hid
      exact hbelow u hu

end LoxLang
