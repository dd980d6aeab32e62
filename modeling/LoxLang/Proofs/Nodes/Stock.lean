import LoxLang.Proofs.Origins.Functions

/-! Where the functions of a machine come from, told by the uses in them: each was declared by code that ran, so whatever
holds of the uses in that code, and of some of them if of all, holds of the uses in every function. -/

namespace LoxLang

/-- All functions, and all methods of classes, have uses as described. -/
structure Store.Stocked (P : List Use → Prop) (s : Store) : Prop where
  closures : ∀ k ∈ s.closures, P k.declared.uses
  methods : ∀ d ∈ s.classes, ∀ (x : String) (k : Closure FrameId), d.methods[x]? = some k → P k.declared.uses

theorem Store.Stocked.mono {P Q : List Use → Prop} {s : Store} (h : s.Stocked P) (hP : ∀ us, P us → Q us) : s.Stocked Q :=
  ⟨fun k hk => hP _ (h.closures k hk), fun d hd x k hk => hP _ (h.methods d hd x k hk)⟩

theorem Store.stocked_iff {P : List Use → Prop} {s : Store} : s.Stocked P ↔ s.Only fun f => P f.uses :=
  ⟨fun h => ⟨h.closures, h.methods⟩, fun h => ⟨h.closures, h.methods⟩⟩

/-- However the run ends, the functions are as described if they were before. -/
def Run.Stocks {α : Type} (P : List Use → Prop) (run : Run α) : Prop :=
  ∀ m, m.store.Stocked P → (run.after m).store.Stocked P

theorem Run.Obeys.stocks {α : Type} {P : List Use → Prop} {F : RuntimeFault → Prop} {run : Run α}
    (h : Obeys (fun f => P f.uses) F run) : Stocks P run :=
  fun _ hm => Store.stocked_iff.mpr (h.after (Store.stocked_iff.mp hm))

theorem Stmt.uses_chosen {s s' : Stmt} {v : Value} (h : s.chosen? v = some s') : s'.uses ⊆ s.uses := by
  unfold Stmt.chosen? at h
  split at h
  · split at h
    · cases h
      simp [Stmt.uses]
    · subst h
      simp [Stmt.uses, Stmt.usesOption]
  · split at h <;> cases h
    simp [Stmt.uses]
  · cases h

/-- What is asked of code that runs. Expressions declare nothing, but call functions that do. -/
def Code.Stocks (P : List Use → Prop) : Code → Prop
  | .expr _ _ | .arguments _ _ => True
  | .stmt s => P s.uses
  | .body statements | .unit statements => P (Stmt.usesEach statements)

section Stocks

variable {P : List Use → Prop} (hP : ∀ {us vs}, P us → vs ⊆ us → P vs)

include hP

theorem hereditary_uses : Hereditary (fun _ => Code.Stocks P) (fun f => P f.uses) fun _ => True where
  first _ _ := trivial
  second _ _ := trivial
  arguments _ := trivial
  argument _ := trivial
  others _ := trivial
  value _ _ := trivial
  chosen h hchosen := hP h (Stmt.uses_chosen hchosen)
  block h := h
  statement h := hP h (List.subset_append_left _ _)
  rest h := hP h (List.subset_append_right _ _)
  function h := h
  methods h f hf := hP h (List.Subset.trans (Function.uses_subset_usesEach hf) (List.subset_append_right _ _))
  body {f} h := by
    cases f
    exact h
  fault _ := trivial
  operator _ _ := trivial

theorem stocks_eval (n : Nat) (e : Expr) : Run.Stocks P (eval n e) :=
  (obeys_eval (hereditary_uses hP) n (b := true) (d := none) trivial).stocks

theorem stocks_interpret (n : Nat) {statements : List Stmt} (h : P (Stmt.usesEach statements)) :
    Run.Stocks P (interpret n statements) :=
  (obeys_interpret (hereditary_uses hP) n (b := true) fun _ hs => hP h (Stmt.uses_subset_usesEach hs)).stocks

end Stocks

end LoxLang
