import LoxLang.Proofs.Joining.Names
import LoxLang.Proofs.Nodes.History
import LoxLang.Proofs.Origins.Moments
import LoxLang.Proofs.OwnReads.Places
import LoxLang.Proofs.Scoping.Growth
import LoxLang.Proofs.Scoping.Lookups

/-! Why a local variable that is read in its own initial value has a value to be read. The name that the reader of programs
relied on was declared before in the text, at top level; code inside a later statement runs only once those before it have
ended, and what is global then stays so, however units end. -/

namespace LoxLang

open Frames Run

/-- A later machine: the same distances are known, and no frame has lost a name. -/
structure Machine.Retains (m m' : Machine) : Prop where
  globals : m'.globals = m.globals
  bindings : m'.bindings = m.bindings
  has : ∀ f x, m.store.frames.Has f x → m'.store.frames.Has f x

/-- If no distance is known for the use, then its name is in the global frame. -/
def Machine.Grounds (m : Machine) (u : Use) : Prop := u.Grounded m.bindings (m.store.frames.Has m.globals)

namespace Machine

variable {m m' m'' : Machine}

theorem Retains.refl (m : Machine) : m.Retains m := ⟨rfl, rfl, fun _ _ => id⟩

theorem Retains.trans (h : m.Retains m') (h' : m'.Retains m'') : m.Retains m'' :=
  ⟨h'.globals.trans h.globals, h'.bindings.trans h.bindings, fun f x hx => h'.has f x (h.has f x hx)⟩

theorem Retains.grounds (h : m.Retains m') {u : Use} (hu : m.Grounds u) : m'.Grounds u := by
  intro hnone
  rw [h.bindings] at hnone
  rw [h.globals]
  exact h.has _ _ (hu hnone)

theorem retains_after {α : Type} {run : Run α} {names : List String} (hsteady : Steady run) (h : Confined names run)
    (m : Machine) : m.Retains (run.after m) := by
  obtain ⟨-, added, -, hgrows⟩ := h m
  have hcontext := hsteady m
  exact ⟨congrArg Context.globals hcontext, congrArg Context.bindings hcontext,
    fun f x hx => hgrows.keeps (lt_of_has hx) hx⟩

theorem retains_of_ok {α : Type} {run : Run α} {names : List String} {a : α} (hsteady : Steady run)
    (h : Confined names run) (e : run m = .ok a m') : m.Retains m' := by
  have hafter := retains_after hsteady h m
  rwa [Halting.after_of_ok e] at hafter

theorem retains_eval {n : Nat} {e : Expr} {v : Value} (h : eval n e m = .ok v m') : m.Retains m' :=
  retains_of_ok (steady_eval n e) (confined_eval n e) h

theorem retains_exec {n : Nat} {s : Stmt} {c : Completion} (h : exec n s m = .ok c m') : m.Retains m' :=
  retains_of_ok (steady_exec n s) (confined_exec n s) h

theorem retains_enter (m : Machine) (outer : FrameId) (names : Names) : m.Retains (m.enter outer names) :=
  ⟨rfl, rfl, fun _ _ hx => (grows_add m.store.frames (some outer) names 0).keeps (lt_of_has hx) hx⟩

theorem retains_called {f : Value} {values : List Value} {body : List Stmt} (h : m.called? values f = some (body, m')) :
    m.Retains m' := by
  obtain ⟨κ, m₁, hinvokes, -, rfl⟩ := called?_eq_some.mp h
  cases hinvokes with
  | function => exact retains_enter m _ _
  | @cls c method _ =>
    have hbind : m.Retains
        { m with store := ((m.store.inHeap fun h => h.addObject c).2.bind method m.store.objects.size).2 } :=
      ⟨rfl, rfl, fun f x hx => (Store.grows_bind (m.store.inHeap fun h => h.addObject c).2 method _ 0).keeps
        (lt_of_has hx) hx⟩
    exact hbind.trans (retains_enter _ _ _)

end Machine

open Machine

namespace Moment

variable {k k' : Moment}

theorem retains_of_starts (h : k.Starts k') : k.machine.Retains k'.machine := by
  cases h with
  | first | argument | value | statement | shown | performed => exact .refl _
  | second _ e | arguments e | others e | chosen _ e => exact retains_eval e
  | again e₁ _ e₂ => exact (retains_eval e₁).trans (retains_exec e₂)
  | rest e => exact retains_exec e
  | next e => exact retains_of_ok (steady_perform _ _) (confined_perform _ _) e
  | block => exact retains_enter _ _ _
  | call e₁ e₂ e₃ hcalled =>
    obtain ⟨rfl, -⟩ := arity_of_admitCall e₃
    have harguments := retains_of_ok (steady_each (steady_eval _) _) (confined_each (confined_eval _) _) e₂
    have hcall := retains_called hcalled
    exact ((retains_eval e₁).trans harguments).trans ⟨hcall.globals, hcall.bindings, hcall.has⟩

theorem retains_of_visits (h : k.Visits k') : k.machine.Retains k'.machine := by
  induction h with
  | refl => exact .refl _
  | tail _ hstep ih => exact ih.trans (retains_of_starts hstep)

end Moment

section Definitions

variable {n : Nat} {s : Stmt} {m m' : Machine} {k : Halt}

/-- Declarations of functions and classes have their own name before what is in them. -/
def Stmt.Defines (s : Stmt) : Prop := (∃ f, s = .function f) ∨ ∃ name superclass methods, s = .classDecl name superclass methods

/-- No other statement gives a name to what is in it. -/
theorem Stmt.grounded_or_defines {bindings : Bindings} {names : String → Prop}
    (h : ∀ u ∈ s.ownReads false, u.Grounded bindings fun x => names x ∨ x ∈ s.declares) :
    (∀ u ∈ s.ownReads false, u.Grounded bindings names) ∨ s.Defines := by
  cases s with
  | function f => exact .inr (.inl ⟨f, rfl⟩)
  | classDecl name superclass methods => exact .inr (.inr ⟨name, superclass, methods, rfl⟩)
  | var => exact .inl nofun
  | expression | print | block | branch | loop | ret =>
    exact .inl fun u hu => (h u hu).mono fun x hx => hx.resolve_right (List.not_mem_nil)

theorem superclassOf_error {u : NameUse} (e : superclassOf u m = .error k m') : m' = m := by
  unfold superclassOf at e
  cases hv : m.found? u.id u.name.lexeme with
  | none =>
    rw [Halting.bind_of_error (read_of_missing hv)] at e
    cases e
    rfl
  | some v =>
    rw [Halting.bind_of_ok (read_of_found hv)] at e
    split at e <;> cases e
    rfl

/-- Only for want of its superclass does a declaration fail, and then nothing has been made. -/
theorem perform_defines_error (hs : s.Defines) (e : perform n s m = .error k m') : m' = m := by
  have hexec : exec n s m = .error k m' := by
    obtain ⟨f, rfl⟩ | ⟨name, superclass, methods, rfl⟩ := hs <;>
    · change (exec n _ >>= fun _ => pure ()) m = _ at e
      cases hexec : exec n _ m with
      | ok c u =>
        rw [Halting.bind_of_ok hexec] at e
        cases e
      | error k u =>
        rw [Halting.bind_of_error hexec] at e
        cases e
        rfl
  cases n with
  | zero =>
    cases hexec
    rfl
  | succ n =>
    obtain ⟨f, rfl⟩ | ⟨name, superclass, methods, rfl⟩ := hs
    · cases hexec
    · cases superclass with
      | none => cases hexec
      | some u =>
        rw [exec] at hexec
        cases hu : superclassOf u m with
        | ok c m₁ =>
          rw [Halting.bind_of_ok hu] at hexec
          cases hexec
        | error k m₁ =>
          rw [Halting.bind_of_error hu] at hexec
          cases hexec
          exact superclassOf_error hu

/-- A declaration of a function or a class evaluates at most the name of a superclass. -/
theorem Moment.not_initial_of_defines (hs : s.Defines) {k : Moment} (hk : (performs n m s).Visits k) (d : Token) (e : Expr) :
    k.code ≠ .expr (some d) e := by
  obtain ⟨f, rfl⟩ | ⟨name, superclass, methods, rfl⟩ := hs
  · rcases Relation.ReflTransGen.cases_head hk with rfl | ⟨k', hstep, -⟩
    · nofun
    · have hparts := mem_parts_iff.mpr hstep
      cases n <;> cases hparts
  · rcases Relation.ReflTransGen.cases_head hk with rfl | ⟨k', hstep, hk⟩
    · nofun
    · cases hstep with
      | value hvalue =>
        obtain ⟨u, rfl, hvalue⟩ := Option.map_eq_some_iff.mp hvalue
        cases hvalue
        rcases Relation.ReflTransGen.cases_head hk with rfl | ⟨k'', hstep, -⟩
        · nofun
        · change Starts ⟨_, .expr none (.read u.id u.name), m⟩ k'' at hstep
          cases hstep with
          | first hfirst | second hfirst => cases hfirst
      | chosen _ _ hchosen => cases hchosen

end Definitions

namespace Machine

variable {c : Chart} {n : Nat} {s : Stmt} {m m' : Machine} {front back : List Stmt}

/-- In no function that there is, a local variable is read in its own initial value without there being such a variable. -/
def WellGrounded (m : Machine) : Prop := m.store.Only fun f => ∀ u ∈ f.ownReads, m.Grounds u

/-- Once all statements in front of one have ended, there is what it relies on, or the statement declares it itself. -/
def Awaits (m : Machine) (statements : List Stmt) : Prop := ∀ front s back, statements = front ++ s :: back →
  ∀ u ∈ s.ownReads false, u.Grounded m.bindings fun x => m.store.frames.Has m.globals x ∨ x ∈ Stmt.declared front ∨ x ∈ s.declares

theorem Awaits.first (h : m.Awaits (s :: back)) : ∀ u ∈ s.ownReads false,
    u.Grounded m.bindings fun x => m.store.frames.Has m.globals x ∨ x ∈ s.declares := fun u hu =>
  (h [] s back rfl u hu).mono fun _ hx => hx.imp_right fun h => h.resolve_left List.not_mem_nil

theorem Awaits.initial (h : m.Awaits (front ++ back)) : m.Awaits front := fun front' s back' hsplit =>
  h front' s (back' ++ back) (by rw [hsplit, List.append_assoc, List.cons_append])

theorem at_top (ha : m.At []) : m.current = m.globals := by
  obtain ⟨hlinked, -⟩ := ha
  generalize m.current = f at hlinked
  cases hlinked
  rfl

/-- A run that ends has made all global that the statements declare. -/
theorem has_of_follows (hm : m.Sound c) (ha : m.At []) {names : List String} (h : m.Follows c m' names) (x : String) :
    m'.store.frames.Has m'.globals x ↔ m.store.frames.Has m.globals x ∨ x ∈ names := by
  rw [h.globals, h.grows.has _ hm.store.within, at_top ha]
  exact or_congr_right (and_iff_right rfl)

/-- Behind statements that have ended. -/
theorem Awaits.behind (h : m.Awaits (front ++ back)) (hm : m.Sound c) (ha : m.At [])
    (hfollows : m.Follows c m' (Stmt.declared front)) : m'.Awaits back := by
  intro front' s back' hsplit u hu
  have hbindings : m'.bindings = m.bindings := congrArg Context.bindings hfollows.context
  rw [hbindings]
  refine (h (front ++ front') s back' (by rw [hsplit, List.append_assoc]) u hu).mono fun x hx => ?_
  rw [has_of_follows hm ha hfollows]
  rwa [Stmt.declared, List.flatMap_append, List.mem_append, or_assoc, ← or_assoc] at hx

theorem WellGrounded.retain (h : m.WellGrounded) (hretains : m.Retains m') :
    m.store.Only fun f => ∀ u ∈ f.ownReads, m'.Grounds u :=
  Store.Only.mono h fun _ hf u hu => hretains.grounds (hf u hu)

/-- What a statement of a unit leaves behind, even if it fails. -/
theorem WellGrounded.perform (h : m.WellGrounded) (hm : m.Sound c) (ha : m.At []) (hfits : s.Fits c [])
    (hs : ∀ u ∈ s.ownReads false, u.Grounded m.bindings fun x => m.store.frames.Has m.globals x ∨ x ∈ s.declares) (n : Nat) :
    ((perform n s).after m).WellGrounded := by
  have hretains := retains_after (steady_perform n s) (confined_perform n s) m
  have hobeys (hreads : ∀ u ∈ s.ownReads false, ((LoxLang.perform n s).after m).Grounds u) :=
    (obeys_perform (hereditary_ownReads ((LoxLang.perform n s).after m).Grounds) n (b := false) hreads).after
      (h.retain hretains)
  cases e : LoxLang.perform n s m with
  | ok _ m' =>
    refine hobeys fun u hu => ?_
    rw [Halting.after_of_ok e] at hretains ⊢
    have hfollows := (keeps_perform n hm ha hfits).of_ok e
    have hu' := hs u hu
    intro hnone
    rw [hretains.bindings] at hnone
    exact (has_of_follows hm ha hfollows _).mpr (hu' hnone)
  | error k m' =>
    rcases Stmt.grounded_or_defines hs with hs | hdefines
    · exact hobeys fun u hu => hretains.grounds (hs u hu)
    · rw [Halting.after_of_error e, perform_defines_error hdefines e]
      exact h

/-- However far a unit gets. -/
theorem WellGrounded.interpret (n : Nat) : ∀ {statements : List Stmt} {m : Machine}, m.WellGrounded → m.Sound c → m.At [] →
    Stmt.FitsEach c [] statements → m.Awaits statements → ((interpret n statements).after m).WellGrounded
  | [], _, h, _, _, _, _ => h
  | s :: rest, m, h, hm, ha, hfits, hawaits => by
    have hfirst := h.perform hm ha hfits.1 hawaits.first n
    unfold LoxLang.interpret
    cases e : LoxLang.perform n s m with
    | error k m' => rwa [Halting.after_of_error e, ← Halting.after_of_error (Halting.bind_of_error e)] at hfirst
    | ok _ m' =>
      have hfollows := (keeps_perform n hm ha hfits.1).of_ok e
      have hsplit : m.Awaits ([s] ++ rest) := hawaits
      have hrest := interpret n (Halting.after_of_ok e ▸ hfirst) hfollows.sound (hfollows.at_declare hm ha) hfits.2
        (hsplit.behind hm ha (hfollows.congr fun x => by simp [Stmt.declared]))
      have hafter : (LoxLang.perform n s >>= fun _ => LoxLang.interpret n rest).after m = (LoxLang.interpret n rest).after m' := by
        simp only [Halting.after, Halting.bind_of_ok e]
      exact hafter ▸ hrest

end Machine

theorem Stmt.FitsEach.initial {c : Chart} {back : List Stmt} : ∀ {front : List Stmt} {l : Layout},
    Stmt.FitsEach c l (front ++ back) → Stmt.FitsEach c l front
  | [], _, _ => trivial
  | _ :: _, _, h => ⟨h.1, h.2.initial⟩

namespace Session

variable {s : Session} {source : String} {statements front back : List Stmt} {st : Stmt} {known : Bindings} {n : Nat} {k : Moment}

/-- What the reader of programs relied on is in the text, or was global before. -/
theorem grounded_of_accepted (ha : s.accepted? source = some (front ++ st :: back, known)) : ∀ u ∈ st.ownReads false,
    u.Grounded known fun x => x ∈ s.globals ∨ x ∈ Stmt.declared front ∨ x ∈ st.declares := by
  obtain ⟨-, hresolve⟩ := read_of_accepted ha
  have hmade := made_of_accepted ha
  have hfits : Stmt.FitsEach ⟨known, (s.read source).nextId, false⟩ [] (front ++ st :: back) :=
    fits_of_resolve hresolve hmade.uses.nodup hmade.uses.proper hmade.tidy nofun fun u hu =>
      ⟨(hmade.uses.within u hu).2, rfl⟩
  have hallowed := wellFormed_iff.mp ((resolve_iff_sites hmade.tidy).mp (by rw [hresolve]; rfl))
  intro u hu
  exact (Stmt.grounded_top front rfl hfits hallowed u hu).mono fun x hx =>
    hx.imp_left fun hx => hx.resolve_right List.not_mem_nil

/-- So the unit can start. -/
theorem awaits_of_accepted (ha : s.accepted? source = some (statements, known)) : (s.ready known).Awaits statements := by
  rintro front st back rfl u hu hnone
  rw [bindings_ready, Option.or_eq_none_iff] at hnone
  exact (grounded_of_accepted ha u hu hnone.1).imp_left (s.mem_globals _).mp

theorem wellGrounded_ready (h : s.machine.WellGrounded) (known : Bindings) : (s.ready known).WellGrounded :=
  Store.Only.mono h fun _ hf u hu hnone => hf u hu (Option.or_eq_none_iff.mp (bindings_ready s known u.id ▸ hnone)).2

theorem Reachable.wellGrounded (h : s.Reachable) : s.machine.WellGrounded := by
  induction h with
  | start => exact ⟨nofun, nofun⟩
  | takeWritten _ ih => exact ih
  | @run s n source hs ih =>
    cases ha : s.accepted? source with
    | none =>
      obtain ⟨sink, hrun⟩ := run_of_refused ha n
      rw [hrun]
      exact ih
    | some unit =>
      rw [(run_conclude ha n).2]
      exact (wellGrounded_ready ih unit.2).interpret n (hs.sound.ready ha) (at_ready hs.atRest unit.2)
        (hs.sound.fits ha nofun) (awaits_of_accepted ha)

/-- Where a read of a local variable in its own initial value is evaluated without a distance, its name is global. -/
theorem Reachable.grounds_of_visits (hs : s.Reachable) (hk : s.Visits n source k) {d : Token} {e : Expr}
    (hcode : k.code = .expr (some d) e) (hlocal : k.machine.current ≠ k.machine.globals) :
    ∀ u ∈ e.uses, u.OwnRead (some d) → k.machine.Grounds u := by
  intro u hu hown
  obtain ⟨⟨statements, known⟩, ha, hvisits⟩ := hk
  obtain ⟨front, back, t, rfl, hfront, rfl | ⟨first, rest, rfl, hinside⟩⟩ := Moment.exists_front hvisits
  · cases hcode
  have hm := hs.sound.ready ha
  have hstands := at_ready hs.atRest known
  have hfits := (hs.sound.fits ha nofun).initial
  have hfollows := (keeps_interpret n front hm hstands hfits).of_ok hfront
  have hgrounded := (wellGrounded_ready hs.wellGrounded known).interpret n hm hstands hfits (awaits_of_accepted ha).initial
  rw [Halting.after_of_ok hfront] at hgrounded
  rcases Stmt.grounded_or_defines ((awaits_of_accepted ha).behind hm hstands hfollows).first with hfirst | hdefines
  · have hcurrent : t.current = t.globals := Machine.at_top (hfollows.at_declare hm hstands)
    have hstart : Moment.Inherits (fun b code => ∀ u ∈ code.ownReads b, t.Grounds u) (fun f => ∀ u ∈ f.ownReads, t.Grounds u)
        ⟨n, .stmt first, t⟩ := ⟨⟨false, hfirst, absurd hcurrent⟩, hgrounded⟩
    obtain ⟨⟨b, hb, hflag⟩, -⟩ := (Moment.inherits_of_performs (hereditary_ownReads t.Grounds) hstart hinside).1
    have hretains := Moment.retains_of_visits hinside
    have hmachine : (Moment.performs n t first).machine = t := by
      unfold Moment.performs
      split
      · split <;> rfl
      · rfl
    rw [hmachine] at hretains
    rw [hcode, hflag hlocal] at hb
    exact hretains.grounds (hb u (Use.mem_ownReads.mpr ⟨rfl, hu, hown⟩))
  · exact absurd hcode (Moment.not_initial_of_defines hdefines hinside d e)

end Session

/-- Where a local variable is read in its own initial value, and the program is accepted, the name is found. If the read has
no distance, then the name was global before the unit, or is declared in it at top level, by a statement in front of the
one with the read or by that one itself. And whenever such a read is evaluated, in whatever unit of a session, in a function
of whatever unit before it, however those have ended: either it has a distance, of at least one, and at that distance there
is a frame, not the global one, that has the name; or it has none, and the global frame has the name. So it has a value. -/
theorem own_reads_defined :
    (∀ (s : Session) source statements known, s.accepted? source = some (statements, known) →
      ∀ front st back, statements = front ++ st :: back → ∀ u ∈ st.ownReads false, known[u.id]? = none →
        u.token.lexeme ∈ s.globals ∨ u.token.lexeme ∈ Stmt.declared front ∨ u.token.lexeme ∈ st.declares) ∧
    ∀ s : Session, s.Reachable → ∀ n source k, s.Visits n source k →
      ∀ d id t, k.code = .expr (some d) (.read id t) → d.lexeme = t.lexeme → k.machine.current ≠ k.machine.globals →
        ((∃ h g, k.machine.bindings[id]? = some (h + 1) ∧
            k.machine.store.frames.ancestor? k.machine.current (h + 1) = some g ∧ g ≠ k.machine.globals ∧
              k.machine.store.frames.Has g t.lexeme) ∨
          k.machine.bindings[id]? = none ∧ k.machine.store.frames.Has k.machine.globals t.lexeme) ∧
        ∃ v, ∀ b, eval (b + 1) (.read id t) k.machine = .ok v k.machine := by
  refine ⟨fun s source statements known ha front st back hsplit u hu => ?_, fun s hs n source k hk d id t hcode hname hlocal => ?_⟩
  · subst hsplit
    exact Session.grounded_of_accepted ha u hu
  obtain ⟨c, l, hfits⟩ := hs.fits hk
  -- A recorded distance leads past the frame of the new variable; without one the name was global when resolved.
  cases hentry : k.machine.bindings[id]? with
  | some h =>
    obtain ⟨g, hg, hglobal, hhas⟩ := Moment.ancestor_of_lookup hfits hcode rfl hentry
    obtain ⟨v, hv⟩ := read_of_has hentry hg hhas
    refine ⟨.inl ?_, v, fun b => hv⟩
    have hcodeFits := hfits.code
    rw [hcode] at hcodeFits
    obtain ⟨hfree, huses⟩ := hcodeFits
    have hops := (huses ⟨.read, id, t⟩ List.mem_cons_self).2
    dsimp only at hops
    rw [hfits.sound.bindings, hentry] at hops
    cases l with
    | nil => cases hops
    | cons scope outer =>
      rw [Layout.hops?_cons_of_not_mem (hname ▸ hfree d rfl scope rfl)] at hops
      obtain ⟨h, -, rfl⟩ := Option.map_eq_some_iff.mp hops.symm
      exact ⟨h, g, rfl, hg, hglobal, hhas⟩
  | none =>
    have hhas := hs.grounds_of_visits hk hcode hlocal ⟨.read, id, t⟩ List.mem_cons_self ⟨rfl, d, rfl, hname⟩ hentry
    obtain ⟨v, hv⟩ := Option.isSome_iff_exists.mp hhas
    have hfound : k.machine.found? id t.lexeme = some v := by
      rw [Machine.found?, hentry]
      dsimp only
      rw [get?_of_root hfits.sound.store.root, ← here?_eq, hv]
    exact ⟨.inr ⟨rfl, hhas⟩, v, fun b => read_of_found hfound⟩

/-- The unit is the call of a function that reads its first variable in its initial value, without a distance. -/
def Session.callsOwnReader (s : Session) (source : String) : Bool :=
  match s.accepted? source with
  | some ([.expression (.call callee paren [])], known) =>
    match eval 7 callee (s.ready known) with
    | .ok f m₁ =>
      match admitCall paren f 0 m₁ with
      | .ok () m₂ =>
        match { m₂ with depth := m₂.depth + 1 }.called? [] f with
        | some (.var d (some (.read id t)) :: _, m) =>
          m.bindings[id]? == none && d.lexeme == t.lexeme && m.current != m.globals
        | _ => false
      | _ => false
    | _ => false
  | _ => false

/-- A function that a failed unit left behind, called in the next one. -/
theorem own_reads_defined_after_failure :
    let first := (Session.start false ⟨0⟩ .unlimited .unlimited).run 30
      "var x = 1; function f() { var x = x; print x; } nosuch;"
    first.1 = .runtimeError ∧
      ∃ k d id t, first.2.Visits 9 "f();" k ∧ k.code = .expr (some d) (.read id t) ∧ d.lexeme = t.lexeme ∧
        k.machine.bindings[id]? = none ∧ ∃ v, ∀ b, eval (b + 1) (.read id t) k.machine = .ok v k.machine := by
  intro first
  have hs : first.2.Reachable := .run 30 _ (.start false ⟨0⟩ .unlimited .unlimited)
  have hrun : first.2.callsOwnReader "f();" = true := by decide +kernel
  have hfailed : first.1 = .runtimeError := by decide +kernel
  have hprompt : first.2.machine.prompt = false := by decide +kernel
  clear_value first
  refine ⟨hfailed, ?_⟩
  unfold Session.callsOwnReader at hrun
  split at hrun
  · rename_i callee paren known ha
    split at hrun
    · rename_i f m₁ hf
      split at hrun
      · rename_i m₂ hadmit
        split at hrun
        · rename_i d id t rest m hcalled
          have hbody : Moment.Visits ⟨9, .unit [.expression (.call callee paren [])], first.2.ready known⟩
              ⟨7, .body (.var d (some (.read id t)) :: rest), m⟩ :=
            .head (.performed fun _ _ => hprompt) (Moment.visits_called hf hadmit hcalled)
          have hk : first.2.Visits 9 "f();" ⟨6, .expr (some d) (.read id t), m⟩ :=
            ⟨_, ha, hbody.trans (.head .statement (.single (.value rfl)))⟩
          simp only [Bool.and_eq_true, beq_iff_eq, bne_iff_ne] at hrun
          obtain ⟨⟨hentry, hname⟩, hlocal⟩ := hrun
          exact ⟨_, d, id, t, hk, rfl, hname, hentry, (own_reads_defined.2 _ hs _ _ _ hk d id t rfl hname hlocal).2⟩
        · cases hrun
      · cases hrun
    · cases hrun
  · cases hrun

end LoxLang
