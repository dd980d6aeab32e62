import LoxLang.Proofs.Captures.Parts
import LoxLang.Proofs.Origins.Functions

/-! Where the code of a moment comes from: it stands in a statement of the unit that runs, or in a function that was there
before or that such a statement has declared. -/

namespace LoxLang

open Run

variable {C : Bool → Code → Prop} {P : Function → Prop} {F : RuntimeFault → Prop}

namespace Moment

/-- The code is as described, and so are all functions. Outside of all blocks and functions the global frame is the
current one. -/
structure Inherits (C : Bool → Code → Prop) (P : Function → Prop) (k : Moment) : Prop where
  code : ∃ b, C b k.code ∧ (k.machine.current ≠ k.machine.globals → b = true)
  store : k.machine.store.Only P

namespace Inherits

variable {k : Moment} {n : Nat} {m m' : Machine} {code code' : Code} {α : Type} {run : Run α} {a : α}

/-- Code that begins on the same machine. -/
theorem part (h : Inherits C P ⟨n, code, m⟩) (hcode : ∀ b, C b code → C b code') (n' : Nat) :
    Inherits C P ⟨n', code', m⟩ := by
  obtain ⟨b, hb, hflag⟩ := h.code
  exact ⟨⟨b, hcode b hb, hflag⟩, h.store⟩

/-- Code that begins behind a run. -/
theorem behind (h : Inherits C P ⟨n, code, m⟩) (hcode : ∀ b, C b code → C b code') (hrun : ∀ b, C b code → Obeys P F run)
    (hsteady : Steady run) (e : run m = .ok a m') (n' : Nat) : Inherits C P ⟨n', code', m'⟩ := by
  obtain ⟨b, hb, hflag⟩ := h.code
  have hcontext := hsteady.of_ok e
  have hcurrent : m'.current = m.current := congrArg Context.current hcontext
  have hglobals : m'.globals = m.globals := congrArg Context.globals hcontext
  have hstore := (hrun b hb).after h.store
  rw [Halting.after_of_ok e] at hstore
  exact ⟨⟨b, hcode b hb, by rwa [hcurrent, hglobals]⟩, hstore⟩

end Inherits

variable (h : Hereditary C P F)

include h

/-- The body that a call runs is that of a function. -/
theorem inherits_called {m m' : Machine} {f : Value} {values : List Value} {body : List Stmt} (hm : m.store.Only P)
    (hcalled : m.called? values f = some (body, m')) (n : Nat) : Inherits C P ⟨n, .body body, m'⟩ := by
  obtain ⟨κ, m₁, hinvokes, rfl, rfl⟩ := Machine.called?_eq_some.mp hcalled
  cases hinvokes with
  | function hκ =>
    exact ⟨⟨true, h.body (hm.closures κ (Array.mem_of_getElem? hκ)), fun _ => rfl⟩, hm.closures, hm.methods⟩
  | @cls c method hmethod =>
    have hbody : C true (.body method.declared.body) := h.body (hm.method hmethod)
    exact ⟨⟨true, hbody, fun _ => rfl⟩, hm.closures, hm.methods⟩

/-- What code begins to run in it, or calls. -/
theorem inherits_of_starts {k k' : Moment} (hk : k.Inherits C P) (hcode : ∀ statements, k.code ≠ .unit statements)
    (hstep : k.Starts k') : k'.Inherits C P ∧ ∀ statements, k'.code ≠ .unit statements := by
  cases hstep with
  | first hfirst => exact ⟨hk.part (fun b hb => h.first hb hfirst) _, nofun⟩
  | second hfirst e hsecond =>
    exact ⟨hk.behind (fun b hb => h.second hb hsecond) (fun b hb => obeys_eval h _ (h.first hb hfirst))
      (steady_eval _ _) e _, nofun⟩
  | arguments e =>
    exact ⟨hk.behind (fun b hb => h.arguments hb) (fun b hb => obeys_eval h _ (h.first hb rfl)) (steady_eval _ _) e _,
      nofun⟩
  | argument => exact ⟨hk.part (fun b hb => h.argument hb) _, nofun⟩
  | others e =>
    exact ⟨hk.behind (fun b hb => h.others hb) (fun b hb => obeys_eval h _ (h.argument hb)) (steady_eval _ _) e _, nofun⟩
  | @call n d callee paren es f values body m m₁ m₂ m₃ m₄ e₁ e₂ e₃ hcalled =>
    have hcallee : Inherits C P ⟨n, .arguments d es, m₁⟩ :=
      hk.behind (fun b hb => h.arguments hb) (fun b hb => obeys_eval h _ (h.first hb rfl)) (steady_eval _ _) e₁ _
    obtain ⟨b, hb, -⟩ := hcallee.code
    have harguments := (obeys_each h (fun _ he => obeys_eval h n he) hb).after hcallee.store
    rw [Halting.after_of_ok e₂] at harguments
    obtain ⟨rfl, -⟩ := arity_of_admitCall e₃
    exact ⟨inherits_called (m := { m₃ with depth := m₃.depth + 1 }) h harguments hcalled _, nofun⟩
  | value hvalue => exact ⟨hk.part (fun b hb => h.value hb hvalue) _, nofun⟩
  | chosen hvalue e hchosen =>
    exact ⟨hk.behind (fun b hb => h.chosen hb hchosen) (fun b hb => obeys_eval h _ (h.value hb hvalue))
      (steady_eval _ _) e _, nofun⟩
  | @again n condition body v m m' m'' e₁ htrue e₂ =>
    have hcondition : Inherits C P ⟨n, .stmt (.loop condition body), m'⟩ :=
      hk.behind (fun _ => id) (fun b hb => obeys_eval h _ (h.value hb rfl)) (steady_eval _ _) e₁ _
    have hbody {b : Bool} (hb : C b (.stmt (.loop condition body))) : Obeys P F (exec n body) :=
      obeys_exec h _ (h.chosen (v := v) hb (if_pos htrue))
    exact ⟨hcondition.behind (fun _ => id) (fun b hb => hbody hb) (steady_exec _ _) e₂ _, nofun⟩
  | block =>
    obtain ⟨b, hb, -⟩ := hk.code
    exact ⟨⟨⟨true, h.block hb, fun _ => rfl⟩, hk.store.closures, hk.store.methods⟩, nofun⟩
  | statement => exact ⟨hk.part (fun b hb => h.statement hb) _, nofun⟩
  | rest e =>
    exact ⟨hk.behind (fun b hb => h.rest hb) (fun b hb => obeys_exec h _ (h.statement hb)) (steady_exec _ _) e _, nofun⟩
  | shown | performed | next => exact absurd rfl (hcode _)

theorem inherits_of_visits {k k' : Moment} (hk : k.Inherits C P) (hcode : ∀ statements, k.code ≠ .unit statements)
    (hvisits : k.Visits k') : k'.Inherits C P ∧ ∀ statements, k'.code ≠ .unit statements := by
  induction hvisits with
  | refl => exact ⟨hk, hcode⟩
  | tail _ hstep ih => exact inherits_of_starts h ih.1 ih.2 hstep

/-- What is run for a statement of a unit. -/
theorem inherits_of_performs {n : Nat} {s : Stmt} {m : Machine} {k : Moment} (hs : Inherits C P ⟨n, .stmt s, m⟩)
    (hk : (performs n m s).Visits k) : k.Inherits C P ∧ ∀ statements, k.code ≠ .unit statements := by
  have hfirst : (performs n m s).Inherits C P ∧ ∀ statements, (performs n m s).code ≠ .unit statements := by
    unfold performs
    split
    · split
      · exact ⟨hs.part (fun b hb => h.value hb rfl) _, nofun⟩
      · exact ⟨hs, nofun⟩
    · exact ⟨hs, nofun⟩
  exact inherits_of_visits h hfirst.1 hfirst.2 hk

omit h in
/-- A moment of a unit comes behind some of its statements, which have ended, and it is the beginning of the rest or inside
the first of that. -/
theorem exists_front {n : Nat} {statements : List Stmt} {m : Machine} {k : Moment}
    (hk : Visits ⟨n, .unit statements, m⟩ k) : ∃ front back t, statements = front ++ back ∧
      interpret n front m = .ok () t ∧
      (k = ⟨n, .unit back, t⟩ ∨ ∃ s rest, back = s :: rest ∧ (performs n t s).Visits k) := by
  induction statements generalizing m with
  | nil =>
    rcases Relation.ReflTransGen.cases_head hk with rfl | ⟨k', hstep, -⟩
    · exact ⟨[], [], m, rfl, rfl, .inl rfl⟩
    · cases mem_parts_iff.mpr hstep
  | cons s rest ih =>
    rcases Relation.ReflTransGen.cases_head hk with rfl | ⟨k', hstep, hk⟩
    · exact ⟨[], s :: rest, m, rfl, rfl, .inl rfl⟩
    · rcases List.mem_cons.mp (mem_parts_iff.mpr hstep) with rfl | hnext
      · exact ⟨[], s :: rest, m, rfl, rfl, .inr ⟨s, rest, rfl, hk⟩⟩
      · obtain ⟨⟨⟩, t, hperform, hnext⟩ := Halting.mem_upon.mp hnext
        cases List.mem_singleton.mp hnext
        obtain ⟨front, back, t', rfl, hfront, hk⟩ := ih hk
        exact ⟨s :: front, back, t', rfl, (Halting.bind_of_ok hperform).trans hfront, hk⟩

end Moment

end LoxLang
