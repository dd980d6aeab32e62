import LoxLang.Proofs.Binding.Bonds

/-! Walks over code and over the same code relabeled: they find the same faults, at the other lines, and record the same
distances, under the other node ids. -/

namespace LoxLang

/-- The node ids stay different from one another. -/
def Relabeling.Separates (ρ : Relabeling) (ids : NodeId → Prop) : Prop :=
  ∀ i j, ids i → ids j → ρ.id i = ρ.id j → i = j

namespace Walk

structure Echoes (ρ : Relabeling) (ids : NodeId → Prop) (w w' : Walk) : Prop where
  scopes : w'.scopes = w.scopes
  globals : w'.globals = w.globals
  faults : w'.faults = w.faults.map (Diagnostic.relabel ρ)
  bindings : ∀ i, ids i → w'.bindings[ρ.id i]? = w.bindings[i]?

variable {ρ : Relabeling} {ids : NodeId → Prop} {w w' : Walk} (h : Echoes ρ ids w w')

include h

theorem Echoes.fault (t : Token) (cause : BindingFault) : Echoes ρ ids (w.fault t cause) (w'.fault (t.relabel ρ) cause) :=
  { h with faults := by simp [Walk.fault, h.faults, Diagnostic.relabel, Token.mark_relabel] }

theorem Echoes.record (hρ : ρ.Separates ids) {id : NodeId} (hid : ids id) (d : Nat) :
    Echoes ρ ids (w.record id d) (w'.record (ρ.id id) d) :=
  { h with
    bindings := fun i hi => by
      have hsame : ρ.id id = ρ.id i ↔ id = i := ⟨hρ id i hid hi, congrArg ρ.id⟩
      simp only [Walk.record, Std.ExtTreeMap.getElem?_insert, Std.compare_eq_iff_eq, hsame, h.bindings i hi] }

omit h

theorem bond_echoes (hρ : ρ.Separates ids) : Bond ρ (fun u => ids u.id) (Echoes ρ ids) where
  scopes h := h.scopes
  rescope h ss := ⟨rfl, h.globals, h.faults, h.bindings⟩
  global h x := ⟨h.scopes, congrArg (·.insert x) h.globals, h.faults, h.bindings⟩
  fault h t cause _ := h.fault t cause
  record h _ hu d := h.record hρ hu d
  missing h u _ := by
    rw [h.globals]
    split
    · exact h
    · exact h.fault u.token _

end Walk

open Walk

variable {ρ : Relabeling} {ids : NodeId → Prop}

/-- The resolver finds the same faults in both programs, or the same distances. -/
theorem resolve_relabel (hρ : ρ.Separates ids) (globals : Std.ExtTreeSet String) {statements : List Stmt}
    (hu : ∀ u ∈ Stmt.usesEach statements, ids u.id) :
    (∀ faults, resolve globals statements = .error faults →
      resolve globals (Stmt.relabelEach ρ statements) = .error (faults.map (Diagnostic.relabel ρ))) ∧
    ∀ bindings, resolve globals statements = .ok bindings →
      ∃ bindings', resolve globals (Stmt.relabelEach ρ statements) = .ok bindings' ∧
        ∀ i, ids i → bindings'[ρ.id i]? = bindings[i]? := by
  have hstart : Echoes ρ ids (.start globals) (.start globals) := ⟨rfl, rfl, rfl, fun _ _ => by simp [Walk.start]⟩
  have h := (bond_echoes hρ).stmts .topLevel statements hu hstart
  have hempty := congrArg List.isEmpty h.faults
  rw [List.isEmpty_map] at hempty
  unfold resolve
  dsimp only
  rw [hempty, h.faults]
  split
  · refine ⟨nofun, fun bindings hb => ⟨_, rfl, fun i hi => ?_⟩⟩
    rw [← Except.ok.inj hb]
    exact h.bindings i hi
  · refine ⟨fun faults hf => ?_, nofun⟩
    rw [← Except.error.inj hf]

end LoxLang
