import LoxLang.Proofs.Binding.Bonds
import LoxLang.Proofs.Counting.Acceptance

/-! Programs with one statement left open. What stands there has its own uses and its own place in the layout, and the
rest of the program is walked alike whatever stands there, if that is walked alike. -/

namespace LoxLang

/-- A statement with a gap in it where another one may stand. -/
inductive Gap
  | here
  | block (before : List Stmt) (inner : Gap) (after : List Stmt)
  | branch (condition : Expr) (inner : Gap) (no : Option Stmt)
  | branchElse (condition : Expr) (yes : Stmt) (inner : Gap)
  | loop (condition : Expr) (inner : Gap)
  | function (name : Token) (parameters : List Token) (before : List Stmt) (inner : Gap) (after : List Stmt)
  | method (cls : Token) (superclass : Option NameUse) (earlier : List Function) (name : Token)
    (parameters : List Token) (before : List Stmt) (inner : Gap) (after : List Stmt) (later : List Function)

namespace Gap

def fill (s : Stmt) : Gap → Stmt
  | here => s
  | block before inner after => .block (before ++ inner.fill s :: after)
  | branch condition inner no => .branch condition (inner.fill s) no
  | branchElse condition yes inner => .branch condition yes (some (inner.fill s))
  | loop condition inner => .loop condition (inner.fill s)
  | function name parameters before inner after => .function (.mk name parameters (before ++ inner.fill s :: after))
  | method cls superclass earlier name parameters before inner after later =>
    .classDecl cls superclass (earlier ++ .mk name parameters (before ++ inner.fill s :: after) :: later)

end Gap

/-- A program with a gap in it. -/
structure Sketch where
  before : List Stmt
  gap : Gap
  after : List Stmt

def Sketch.fill (p : Sketch) (s : Stmt) : List Stmt := p.before ++ p.gap.fill s :: p.after

theorem Function.usesEach_append (a b : List Function) : usesEach (a ++ b) = usesEach a ++ usesEach b := by
  induction a with
  | nil => rfl
  | cons f rest ih => rw [List.cons_append, usesEach, usesEach, ih, List.append_assoc]

section Uses

theorem Stmt.usesEach_around (before after : List Stmt) (s : Stmt) :
    Stmt.usesEach (before ++ s :: after) = Stmt.usesEach before ++ (s.uses ++ Stmt.usesEach after) := by
  rw [Stmt.usesEach_append, Stmt.usesEach]

/-- The uses of the rest stand around those of what fills the gap. -/
theorem Gap.uses_fill : ∀ g : Gap, ∃ us vs, ∀ s, (g.fill s).uses = us ++ (s.uses ++ vs)
  | .here => ⟨[], [], fun s => by simp [fill]⟩
  | .block before inner after => by
    obtain ⟨us, vs, h⟩ := inner.uses_fill
    refine ⟨Stmt.usesEach before ++ us, vs ++ Stmt.usesEach after, fun s => ?_⟩
    rw [fill, Stmt.uses, Stmt.usesEach_around, h]
    simp only [List.append_assoc]
  | .branch condition inner no => by
    obtain ⟨us, vs, h⟩ := inner.uses_fill
    refine ⟨condition.uses ++ us, vs ++ Stmt.usesOption no, fun s => ?_⟩
    rw [fill, Stmt.uses, h]
    simp only [List.append_assoc]
  | .branchElse condition yes inner => by
    obtain ⟨us, vs, h⟩ := inner.uses_fill
    refine ⟨condition.uses ++ yes.uses ++ us, vs, fun s => ?_⟩
    rw [fill, Stmt.uses, Stmt.usesOption, h]
    simp only [List.append_assoc]
  | .loop condition inner => by
    obtain ⟨us, vs, h⟩ := inner.uses_fill
    refine ⟨condition.uses ++ us, vs, fun s => ?_⟩
    rw [fill, Stmt.uses, h]
    simp only [List.append_assoc]
  | .function name parameters before inner after => by
    obtain ⟨us, vs, h⟩ := inner.uses_fill
    refine ⟨Stmt.usesEach before ++ us, vs ++ Stmt.usesEach after, fun s => ?_⟩
    rw [fill, Stmt.uses, Function.uses, Stmt.usesEach_around, h]
    simp only [List.append_assoc]
  | .method cls superclass earlier name parameters before inner after later => by
    obtain ⟨us, vs, h⟩ := inner.uses_fill
    refine ⟨(superclass.map fun u => ⟨.read, u.id, u.name⟩).toList ++ Function.usesEach earlier ++
      Stmt.usesEach before ++ us, vs ++ Stmt.usesEach after ++ Function.usesEach later, fun s => ?_⟩
    rw [fill, Stmt.uses, Function.usesEach_append, Function.usesEach, Function.uses, Stmt.usesEach_around, h]
    simp only [List.append_assoc]

theorem Sketch.uses_fill (p : Sketch) : ∃ us vs, ∀ s, Stmt.usesEach (p.fill s) = us ++ (s.uses ++ vs) := by
  obtain ⟨us, vs, h⟩ := p.gap.uses_fill
  refine ⟨Stmt.usesEach p.before ++ us, vs ++ Stmt.usesEach p.after, fun s => ?_⟩
  rw [fill, Stmt.usesEach_around, h]
  simp only [List.append_assoc]

end Uses

section Layouts

theorem Stmt.fitsEach_around (before : List Stmt) (l : Layout) : ∃ l', ∀ (c : Chart) (s : Stmt) (after : List Stmt),
    Stmt.FitsEach c l (before ++ s :: after) → s.Fits c l' := by
  induction before generalizing l with
  | nil => exact ⟨l, fun c s after h => h.1⟩
  | cons s rest ih =>
    obtain ⟨l', h⟩ := ih (l.declare s.declares)
    exact ⟨l', fun c s' after hs => h c s' after hs.2⟩

/-- The gap has a place in the layout, whatever fills it. -/
theorem Gap.fits_fill : ∀ (g : Gap) (l : Layout), ∃ l', ∀ (c : Chart) (s : Stmt), (g.fill s).Fits c l → s.Fits c l'
  | .here, l => ⟨l, fun _ _ h => h⟩
  | .block before inner after, l => by
    obtain ⟨l₁, h₁⟩ := Stmt.fitsEach_around before ([] :: l)
    obtain ⟨l₂, h₂⟩ := inner.fits_fill l₁
    exact ⟨l₂, fun c s h => h₂ c s (h₁ c _ after h)⟩
  | .branch condition inner no, l => by
    obtain ⟨l', h'⟩ := inner.fits_fill l
    exact ⟨l', fun c s h => h' c s h.2.1⟩
  | .branchElse condition yes inner, l => by
    obtain ⟨l', h'⟩ := inner.fits_fill l
    exact ⟨l', fun c s h => h' c s h.2.2.2.1⟩
  | .loop condition inner, l => by
    obtain ⟨l', h'⟩ := inner.fits_fill l
    exact ⟨l', fun c s h => h' c s h.2.1⟩
  | .function name parameters before inner after, l => by
    obtain ⟨l₁, h₁⟩ := Stmt.fitsEach_around before (parameters.map Token.lexeme :: l.declare [name.lexeme])
    obtain ⟨l₂, h₂⟩ := inner.fits_fill l₁
    exact ⟨l₂, fun c s h => h₂ c s (h₁ c _ after h.2.2)⟩
  | .method cls superclass earlier name parameters before inner after later, l => by
    obtain ⟨l₁, h₁⟩ := Stmt.fitsEach_around before
      (parameters.map Token.lexeme :: (l.declare [cls.lexeme]).ofClass superclass)
    obtain ⟨l₂, h₂⟩ := inner.fits_fill l₁
    refine ⟨l₂, fun c s h => h₂ c s (h₁ c _ after ?_)⟩
    exact (h.2.2.mem (List.mem_append_right _ List.mem_cons_self)).2

theorem Sketch.fits_fill (p : Sketch) (l : Layout) : ∃ l', ∀ (c : Chart) (s : Stmt),
    Stmt.FitsEach c l (p.fill s) → s.Fits c l' := by
  obtain ⟨l₁, h₁⟩ := Stmt.fitsEach_around p.before l
  obtain ⟨l₂, h₂⟩ := p.gap.fits_fill l₁
  exact ⟨l₂, fun c s h => h₂ c s (h₁ c _ p.after h)⟩

end Layouts

section Tidiness

variable {s s' : Stmt}

theorem Stmt.tidyEach_iff {body : List Stmt} : Stmt.TidyEach body ↔ ∀ s ∈ body, s.Tidy := by
  induction body with
  | nil => simp [Stmt.TidyEach]
  | cons s rest ih => rw [Stmt.TidyEach, ih, List.forall_mem_cons]

theorem Function.tidyEach_iff {fs : List Function} : Function.TidyEach fs ↔ ∀ f ∈ fs, f.Tidy := by
  induction fs with
  | nil => simp [Function.TidyEach]
  | cons f rest ih => rw [Function.TidyEach, ih, List.forall_mem_cons]

theorem Stmt.tidyEach_around {before after : List Stmt} :
    Stmt.TidyEach (before ++ s :: after) ↔ Stmt.TidyEach before ∧ s.Tidy ∧ Stmt.TidyEach after := by
  simp only [Stmt.tidyEach_iff, List.forall_mem_append, List.forall_mem_cons]

theorem Gap.declares_fill (g : Gap) (hs : s'.declares = s.declares) : (g.fill s').declares = (g.fill s).declares := by
  cases g <;> first | exact hs | rfl

/-- What fills a gap may be replaced by what declares the same names. -/
theorem Gap.tidy_fill : ∀ (g : Gap), (g.fill s).Tidy → s'.declares = s.declares →
    s.Tidy ∧ (s'.Tidy → (g.fill s').Tidy)
  | .here, h, _ => ⟨h, id⟩
  | .block before inner after, h, hs => by
    obtain ⟨hbefore, hinner, hafter⟩ := Stmt.tidyEach_around.mp h
    obtain ⟨hold, hnew⟩ := inner.tidy_fill hinner hs
    exact ⟨hold, fun hs' => Stmt.tidyEach_around.mpr ⟨hbefore, hnew hs', hafter⟩⟩
  | .branch condition inner no, h, hs => by
    obtain ⟨hold, hnew⟩ := inner.tidy_fill h.1 hs
    exact ⟨hold, fun hs' => ⟨hnew hs', (inner.declares_fill hs).trans h.2.1, h.2.2⟩⟩
  | .branchElse condition yes inner, h, hs => by
    obtain ⟨hold, hnew⟩ := inner.tidy_fill h.2.2.1 hs
    exact ⟨hold, fun hs' => ⟨h.1, h.2.1, hnew hs', (inner.declares_fill hs).trans h.2.2.2⟩⟩
  | .loop condition inner, h, hs => by
    obtain ⟨hold, hnew⟩ := inner.tidy_fill h.1 hs
    exact ⟨hold, fun hs' => ⟨hnew hs', (inner.declares_fill hs).trans h.2⟩⟩
  | .function name parameters before inner after, h, hs => by
    obtain ⟨hbefore, hinner, hafter⟩ := Stmt.tidyEach_around.mp h.2.2
    obtain ⟨hold, hnew⟩ := inner.tidy_fill hinner hs
    exact ⟨hold, fun hs' => ⟨h.1, h.2.1, Stmt.tidyEach_around.mpr ⟨hbefore, hnew hs', hafter⟩⟩⟩
  | .method cls superclass earlier name parameters before inner after later, h, hs => by
    have hmethods := Function.tidyEach_iff.mp h.2
    rw [List.forall_mem_append, List.forall_mem_cons] at hmethods
    obtain ⟨hearlier, ⟨hparameters, hbody⟩, hlater⟩ := hmethods
    obtain ⟨hbefore, hinner, hafter⟩ := Stmt.tidyEach_around.mp hbody
    obtain ⟨hold, hnew⟩ := inner.tidy_fill hinner hs
    refine ⟨hold, fun hs' => ⟨h.1, Function.tidyEach_iff.mpr ?_⟩⟩
    rw [List.forall_mem_append, List.forall_mem_cons]
    exact ⟨hearlier, ⟨hparameters, Stmt.tidyEach_around.mpr ⟨hbefore, hnew hs', hafter⟩⟩, hlater⟩

theorem Sketch.tidy_fill (p : Sketch) (h : Stmt.TidyEach (p.fill s)) (hs : s'.declares = s.declares) :
    s.Tidy ∧ (s'.Tidy → Stmt.TidyEach (p.fill s')) := by
  obtain ⟨hbefore, hgap, hafter⟩ := Stmt.tidyEach_around.mp h
  obtain ⟨hold, hnew⟩ := p.gap.tidy_fill hgap hs
  exact ⟨hold, fun hs' => Stmt.tidyEach_around.mpr ⟨hbefore, hnew hs', hafter⟩⟩

end Tidiness

namespace Walk

/-- Walks that have come to the same place with the same faults, and that know the same distances of all nodes but
some. -/
structure Same (others : NodeId → Prop) (w w' : Walk) : Prop where
  scopes : w'.scopes = w.scopes
  globals : w'.globals = w.globals
  faults : w'.faults = w.faults
  bindings : ∀ id, ¬ others id → w'.bindings[id]? = w.bindings[id]?

variable {others : NodeId → Prop} {w w' : Walk}

theorem Same.fault (h : Same others w w') (t : Token) (cause : BindingFault) :
    Same others (w.fault t cause) (w'.fault t cause) :=
  { h with faults := congrArg (· ++ _) h.faults }

theorem Same.record (h : Same others w w') (id : NodeId) (d : Nat) : Same others (w.record id d) (w'.record id d) :=
  { h with
    bindings := fun i hi => by
      simp only [Walk.record, Std.ExtTreeMap.getElem?_insert, h.bindings i hi] }

theorem bond_same (others : NodeId → Prop) : Bond .still (fun _ => True) (Same others) where
  scopes h := h.scopes
  rescope h ss := ⟨rfl, h.globals, h.faults, h.bindings⟩
  global h x := ⟨h.scopes, congrArg (·.insert x) h.globals, h.faults, h.bindings⟩
  fault h t cause _ := h.fault t cause
  record h _ _ d := h.record _ d
  missing h u _ := by
    rw [h.globals]
    split
    · exact h
    · exact h.fault u.token _

namespace Same

variable (h : Same others w w') (around : Surroundings)

include h

theorem parameters (parameters : List Token) : Same others (parameters.foldl (fun w t => (w.declare t).define t) w)
    (parameters.foldl (fun w t => (w.declare t).define t) w') := by
  have hbond := (bond_same others).parameters h parameters
  rwa [Token.map_relabel_of_line _ fun _ => rfl] at hbond

theorem expr (e : Expr) : Same others (e.resolve around w) (e.resolve around w') := by
  have hbond := (bond_same others).expr around e (fun _ _ => trivial) h
  rwa [e.relabel_still] at hbond

theorem stmt (s : Stmt) : Same others (s.resolve around w) (s.resolve around w') := by
  have hbond := (bond_same others).stmt around s (fun _ _ => trivial) h
  rwa [s.relabel_still] at hbond

theorem stmts (body : List Stmt) : Same others (Stmt.resolveEach around body w) (Stmt.resolveEach around body w') := by
  have hbond := (bond_same others).stmts around body (fun _ _ => trivial) h
  rwa [Stmt.relabelEach_still] at hbond

theorem stmtOption (s : Option Stmt) :
    Same others (Stmt.resolveOption around s w) (Stmt.resolveOption around s w') := by
  have hbond := (bond_same others).stmtOption around s (fun _ _ => trivial) h
  rwa [Stmt.relabelOption_still] at hbond

theorem functions (fs : List Function) :
    Same others (Function.resolveMethods around fs w) (Function.resolveMethods around fs w') := by
  have hbond := (bond_same others).functions around fs (fun _ _ => trivial) h
  rwa [Function.relabelEach_still] at hbond

end Same

end Walk

section Walks

open Walk

variable {others : NodeId → Prop} {s s' : Stmt}

/-- Two statements are walked alike but for some nodes. -/
def WalkedAlike (others : NodeId → Prop) (s s' : Stmt) : Prop := ∀ (around : Surroundings) {w w' : Walk},
  Same others w w' → Same others (s.resolve around w) (s'.resolve around w')

theorem WalkedAlike.around (h : WalkedAlike others s s') (before after : List Stmt) (around : Surroundings)
    {w w' : Walk} (hw : Same others w w') :
    Same others (Stmt.resolveEach around (before ++ s :: after) w)
      (Stmt.resolveEach around (before ++ s' :: after) w') := by
  rw [Stmt.resolveEach_append, Stmt.resolveEach_append, Stmt.resolveEach, Stmt.resolveEach]
  exact (h around (hw.stmts around before)).stmts around after

theorem WalkedAlike.function (h : WalkedAlike others s s') (name : Token) (parameters : List Token)
    (before after : List Stmt) (kind : FunctionKind) (around : Surroundings) {w w' : Walk} (hw : Same others w w') :
    Same others ((Function.mk name parameters (before ++ s :: after)).resolve kind around w)
      ((Function.mk name parameters (before ++ s' :: after)).resolve kind around w') := by
  rw [Function.resolve, Function.resolve]
  exact (bond_same others).inScope hw [] fun hw => h.around before after _ (hw.parameters parameters)

/-- A program with either of two statements in a gap is walked alike if the statements are. -/
theorem Gap.alike_fill (h : WalkedAlike others s s') : ∀ g : Gap, WalkedAlike others (g.fill s) (g.fill s')
  | .here => h
  | .block before inner after => by
    intro around w w' hw
    rw [fill, fill, Stmt.resolve, Stmt.resolve]
    exact (bond_same others).inScope hw [] fun hw => (inner.alike_fill h).around before after around hw
  | .branch condition inner no => by
    intro around w w' hw
    rw [fill, fill, Stmt.resolve, Stmt.resolve]
    exact (inner.alike_fill h around (hw.expr around condition)).stmtOption around no
  | .branchElse condition yes inner => by
    intro around w w' hw
    rw [fill, fill, Stmt.resolve, Stmt.resolve, Stmt.resolveOption, Stmt.resolveOption]
    exact inner.alike_fill h around ((hw.expr around condition).stmt around yes)
  | .loop condition inner => by
    intro around w w' hw
    rw [fill, fill, Stmt.resolve, Stmt.resolve]
    exact inner.alike_fill h around (hw.expr around condition)
  | .function name parameters before inner after => by
    intro around w w' hw
    rw [fill, fill, Stmt.resolve, Stmt.resolve]
    have hbond := bond_same others
    have hname := hbond.define (hbond.declare hw name) name
    exact (inner.alike_fill h).function name parameters before after _ around hname
  | .method cls superclass earlier name parameters before inner after later => by
    intro around w w' hw
    have hbond := bond_same others
    have hcls := hbond.define (hbond.declare hw cls) cls
    have hmethods : ∀ (around : Surroundings) {w w' : Walk}, Same others w w' →
        Same others (Function.resolveMethods around
          (earlier ++ .mk name parameters (before ++ inner.fill s :: after) :: later) w)
          (Function.resolveMethods around
            (earlier ++ .mk name parameters (before ++ inner.fill s' :: after) :: later) w') := by
      intro around w w' hw
      rw [Function.resolveMethods_append, Function.resolveMethods_append, Function.resolveMethods,
        Function.resolveMethods]
      refine Same.functions ?_ around later
      exact (inner.alike_fill h).function name parameters before after _ around (hw.functions around earlier)
    rw [fill, fill]
    cases superclass with
    | none =>
      rw [Stmt.resolve, Stmt.resolve]
      exact hbond.inScope hcls ["this"] (hmethods _)
    | some u =>
      rw [Stmt.resolve, Stmt.resolve]
      have hsuperclass := hbond.superclass hcls u trivial cls
      exact hbond.inScope hsuperclass ["super"] fun hw => hbond.inScope hw ["this"] (hmethods _)

theorem Sketch.alike_fill (p : Sketch) (h : WalkedAlike others s s') (globals : Std.ExtTreeSet String) :
    Same others (Stmt.resolveEach .topLevel (p.fill s) (.start globals))
      (Stmt.resolveEach .topLevel (p.fill s') (.start globals)) :=
  (p.gap.alike_fill h).around p.before p.after .topLevel ⟨rfl, rfl, rfl, fun _ _ => rfl⟩

end Walks

end LoxLang
