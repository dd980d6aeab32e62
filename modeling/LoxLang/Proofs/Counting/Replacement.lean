import LoxLang.Proofs.Counting.Hygiene
import LoxLang.Proofs.Counting.Rounds

/-! A program that was read, with the other lowering in the place of one of its loops. It is accepted if and only if the
program is, with the same distances outside the loop, and what the user wrote in the loop refers to the same
declarations. The other loop has node ids of its own, which are those of the first moved up beyond all there are. -/

namespace LoxLang

open Grammar Walk Counting

variable {p : Sketch} {ℓ : VarLoop} {id k : NodeId} {lo hi : NodeId} {globals : Std.ExtTreeSet String} {B B' : Bindings}

namespace VarLoop

theorem tidy_body (h : ℓ.plain.Tidy) : ℓ.body.Tidy := by
  obtain ⟨-, ⟨hround, -⟩, -⟩ := h
  change (ℓ.round ℓ.body).Tidy at hround
  unfold round at hround
  cases hi : ℓ.increment with
  | none => rwa [hi] at hround
  | some e =>
    rw [hi] at hround
    exact hround.1

theorem uses_iteration (id : NodeId) (x : Token) (body : Stmt) : body.uses.Sublist (iteration id x body).uses := by
  simp only [iteration, Stmt.uses, Stmt.usesEach, Expr.usesOption, List.nil_append, List.append_nil]
  exact ((List.sublist_append_left _ _).trans (List.sublist_append_right _ _)).trans (List.sublist_append_left _ _)

theorem uses_round {s t : Stmt} (h : s.uses.Sublist t.uses) : (ℓ.round s).uses.Sublist (ℓ.round t).uses := by
  unfold round
  split
  · simp only [Stmt.uses, Stmt.usesEach]
    exact h.append_right _
  · exact h

/-- The copy has some nodes more. -/
theorem uses_plain (ℓ : VarLoop) (id : NodeId) : ℓ.plain.uses.Sublist (ℓ.copying id).uses := by
  rw [plain_eq, copying_eq]
  simp only [Stmt.uses, Stmt.usesEach, List.append_nil]
  exact ((uses_round (uses_iteration id ℓ.name ℓ.body)).append_left _).append_left _

/-- The nodes that only one of the lowerings has. -/
def Own (ℓ : VarLoop) (id k i : NodeId) : Prop :=
  i ∈ (ℓ.copying id).uses.map Use.id ∨ i ∈ (ℓ.plain.shift k).uses.map Use.id

/-- Wherever the loop stands, both lowerings are walked with the same faults. -/
theorem walkedAlike (ℓ : VarLoop) (hclear : ℓ.body.Clear (carrier ℓ.name).lexeme False) (hdeclares : ℓ.body.declares = [])
    (id k : NodeId) : WalkedAlike (ℓ.Own id k) (ℓ.copying id) (ℓ.plain.shift k) := by
  intro around w w' hw
  have hstart : Abreast w.scopes w.scopes w w' := ⟨rfl, hw.scopes, hw.globals, hw.faults⟩
  have hend := ℓ.abreast_resolve (n := k) around hclear hdeclares id hstart
  refine ⟨hend.scopes'.trans hend.scopes.symm, hend.globals, hend.faults, fun i hi => ?_⟩
  rw [(Stmt.adds_resolve around _ w').elsewhere i fun h => hi (.inr h),
    (Stmt.adds_resolve around _ w).elsewhere i fun h => hi (.inl h)]
  exact hw.bindings i hi

end VarLoop

/-- A program with a loop whose body declares no function and no class, and spells no carrier. -/
structure Sketch.Holds (p : Sketch) (ℓ : VarLoop) (id : NodeId) (lo hi : NodeId) : Prop where
  made : Stmt.MadeInEach lo hi (p.fill (ℓ.copying id))
  clear : ℓ.body.Clear (carrier ℓ.name).lexeme False
  declares : ℓ.body.declares = []

/-- What the user wrote in a loop that was read, and the program around it. -/
theorem Sketch.holds_of_read {lenient : Bool} {source : String} {nextId : NodeId} {parsed : Parsed (List Stmt)}
    (hp : parsed = .ofSource (Parsed.program lenient) source nextId) (h : parsed.result = .ok (p.fill (ℓ.copying id)))
    (hfree : ℓ.body.Closureless) : p.Holds ℓ id nextId parsed.nextId := by
  subst hp
  have hmade := Parsed.made_of_program.2 _ h
  obtain ⟨-, -, hneat, hdeclares⟩ := VarLoop.neat_parts (Sketch.neat_fill (Parsed.neat_of_program h ℓ.name))
  have hcopying : (ℓ.copying id).Tidy := (p.tidy_fill hmade.tidy rfl).1
  have hbody : ℓ.body.Tidy := VarLoop.tidy_body (ℓ.tidy_plain hcopying hdeclares)
  exact ⟨hmade, hneat.clear hbody hfree, hdeclares⟩

namespace Sketch.Holds

variable (h : p.Holds ℓ id lo hi)

include h

/-- The other lowering in the place of the first. -/
theorem alike (k : NodeId) (globals : Std.ExtTreeSet String) :
    Same (ℓ.Own id k) (Stmt.resolveEach .topLevel (p.fill (ℓ.copying id)) (.start globals))
      (Stmt.resolveEach .topLevel (p.fill (ℓ.plain.shift k)) (.start globals)) :=
  p.alike_fill (ℓ.walkedAlike h.clear h.declares id k) globals

theorem accepted (k : NodeId) (globals : Std.ExtTreeSet String) :
    (resolve globals (p.fill (ℓ.plain.shift k))).isOk = (resolve globals (p.fill (ℓ.copying id))).isOk := by
  unfold resolve
  dsimp only
  rw [(h.alike k globals).faults]
  split <;> rfl

theorem tidy (k : NodeId) : Stmt.TidyEach (p.fill (ℓ.plain.shift k)) := by
  have hdeclares : (ℓ.plain.shift k).declares = (ℓ.copying id).declares := ℓ.plain.declares_shift k
  obtain ⟨hcopying, hfill⟩ := p.tidy_fill h.made.tidy hdeclares
  exact hfill ((ℓ.tidy_plain hcopying h.declares).shift k)

end Sketch.Holds

/-- A use of the program with the other lowering, in the loop or around it. -/
theorem Sketch.uses_plain (p : Sketch) (ℓ : VarLoop) (id k : NodeId) : ∃ us vs,
    Stmt.usesEach (p.fill (ℓ.copying id)) = us ++ ((ℓ.copying id).uses ++ vs) ∧
      Stmt.usesEach (p.fill (ℓ.plain.shift k)) = us ++ (ℓ.plain.uses.map (Use.shift k) ++ vs) := by
  obtain ⟨us, vs, h⟩ := p.uses_fill
  exact ⟨us, vs, h _, by rw [h, Stmt.uses_shift]⟩

namespace Sketch.Holds

variable (h : p.Holds ℓ id lo hi) (hk : hi ≤ k)

include h hk

theorem nodup : ((Stmt.usesEach (p.fill (ℓ.plain.shift k))).map Use.id).Nodup := by
  obtain ⟨us, vs, hcopying, hplain⟩ := p.uses_plain ℓ id k
  have hmade := h.made.uses
  rw [hcopying] at hmade
  have hsub : (us ++ (ℓ.plain.uses ++ vs)).Sublist (us ++ ((ℓ.copying id).uses ++ vs)) :=
    ((ℓ.uses_plain id).append_right vs).append_left us
  have hnodup := hmade.nodup.sublist (hsub.map Use.id)
  have hbelow : ∀ i ∈ us.map Use.id ++ vs.map Use.id, i < k := by
    intro i hi
    rw [← List.map_append] at hi
    obtain ⟨u, hu, rfl⟩ := List.mem_map.mp hi
    refine (hmade.within u ?_).2.trans_le hk
    rcases List.mem_append.mp hu with hu | hu
    · exact List.mem_append_left _ hu
    · exact List.mem_append_right _ (List.mem_append_right _ hu)
  have habove : ∀ i ∈ (ℓ.plain.uses.map (Use.shift k)).map Use.id, k ≤ i := by
    intro i hi
    obtain ⟨v, hv, rfl⟩ := List.mem_map.mp hi
    obtain ⟨u, -, rfl⟩ := List.mem_map.mp hv
    exact Nat.le_add_left _ _
  have hshifted : ((ℓ.plain.uses.map (Use.shift k)).map Use.id).Nodup := by
    have hloop : (ℓ.plain.uses.map Use.id).Nodup :=
      hnodup.sublist ((List.sublist_append_left ..).trans (List.sublist_append_right ..) |>.map Use.id)
    have heq : (ℓ.plain.uses.map (Use.shift k)).map Use.id = (ℓ.plain.uses.map Use.id).map (· + k) := by
      rw [List.map_map, List.map_map]
      rfl
    rw [heq]
    exact hloop.map fun a b hab => Nat.add_right_cancel hab
  rw [hplain]
  simp only [List.map_append, List.nodup_append] at hnodup hshifted ⊢
  simp only [List.mem_append] at hnodup hbelow ⊢
  refine ⟨hnodup.1, ⟨hshifted, hnodup.2.1.2.1, fun a ha b hb => ?_⟩, fun a ha b hb => ?_⟩
  · exact ((hbelow b (.inr hb)).trans_le (habove a ha)).ne'
  · rcases hb with hb | hb
    · exact ((hbelow a (.inl ha)).trans_le (habove b hb)).ne
    · exact hnodup.2.2 a ha b (.inr hb)

/-- A node of the program with the other lowering is one of the program, or it has been moved up. -/
theorem cases {u : Use} (hu : u ∈ Stmt.usesEach (p.fill (ℓ.plain.shift k))) :
    (u ∈ Stmt.usesEach (p.fill (ℓ.copying id)) ∧ ¬ ℓ.Own id k u.id) ∨
      ∃ v ∈ Stmt.usesEach (p.fill (ℓ.copying id)), u = v.shift k := by
  obtain ⟨us, vs, hcopying, hplain⟩ := p.uses_plain ℓ id k
  have hmade := h.made.uses
  rw [hcopying] at hmade
  rw [hplain] at hu
  rw [hcopying]
  simp only [List.mem_append] at hu ⊢
  -- those of the rest are none of the loop's
  have hrest : ∀ u, u ∈ us ∨ u ∈ vs → ¬ ℓ.Own id k u.id := by
    rintro u hu (hown | hown)
    · have hnodup := hmade.nodup
      simp only [List.map_append, List.nodup_append, List.mem_append] at hnodup
      rcases hu with hu | hu
      · exact hnodup.2.2 _ (List.mem_map_of_mem hu) _ (.inl hown) rfl
      · exact hnodup.2.1.2.2 _ hown _ (List.mem_map_of_mem hu) rfl
    · rw [Stmt.uses_shift] at hown
      obtain ⟨v, hv, heq⟩ := List.mem_map.mp hown
      obtain ⟨w, -, rfl⟩ := List.mem_map.mp hv
      have hmem : u ∈ us ++ ((ℓ.copying id).uses ++ vs) := by
        simp only [List.mem_append]
        tauto
      have hlt := (hmade.within u hmem).2.trans_le hk
      rw [← heq] at hlt
      exact absurd hlt (Nat.not_lt.mpr (Nat.le_add_left _ _))
  rcases hu with hu | hu | hu
  · exact .inl ⟨.inl hu, hrest u (.inl hu)⟩
  · obtain ⟨v, hv, rfl⟩ := List.mem_map.mp hu
    exact .inr ⟨v, .inr (.inl ((ℓ.uses_plain id).mem hv)), rfl⟩
  · exact .inl ⟨.inr (.inr hu), hrest u (.inr hu)⟩

theorem proper : ∀ u ∈ Stmt.usesEach (p.fill (ℓ.plain.shift k)), u.Proper := by
  intro u hu
  rcases h.cases hk hu with ⟨hu, -⟩ | ⟨v, hv, rfl⟩
  · exact h.made.uses.proper u hu
  · exact h.made.uses.proper v hv

end Sketch.Holds

/-- Both programs have been accepted with distances of their own, and those of the first are among all that are known
to a machine. No distance is known beyond the nodes there are. -/
structure Sketch.Twins (p : Sketch) (ℓ : VarLoop) (id : NodeId) (globals : Std.ExtTreeSet String) (lo hi k : NodeId)
    (B B' known : Bindings) : Prop where
  holds : p.Holds ℓ id lo hi
  fresh : hi ≤ k
  copying : resolve globals (p.fill (ℓ.copying id)) = .ok B
  plain : resolve globals (p.fill (ℓ.plain.shift k)) = .ok B'
  unit : ∀ i, lo ≤ i → i < hi → known[i]? = B[i]?
  beyond : ∀ i, k ≤ i → known[i]? = none

namespace Sketch.Twins

variable {known : Bindings} (h : p.Twins ℓ id globals lo hi k B B' known)

include h

theorem elsewhere {i : NodeId} (hi : ¬ ℓ.Own id k i) : B'[i]? = B[i]? := by
  have hbindings := (h.holds.alike k globals).bindings i hi
  rwa [(walk_of_resolve h.plain).2, (walk_of_resolve h.copying).2] at hbindings

theorem unit_of_use {u : Use} (hu : u ∈ Stmt.usesEach (p.fill (ℓ.copying id))) : known[u.id]? = B[u.id]? := by
  obtain ⟨hlo, hhi⟩ := h.holds.made.uses.within u hu
  exact h.unit u.id hlo hhi

/-- Below the new ids the second program knows no distance that the first does not. -/
theorem agree {i : NodeId} (hi : i < k) : (known ∪ B')[i]? = known[i]? := by
  rw [Std.ExtTreeMap.getElem?_union]
  by_cases hmem : i ∈ (Stmt.usesEach (p.fill (ℓ.plain.shift k))).map Use.id
  · obtain ⟨u, hu, rfl⟩ := List.mem_map.mp hmem
    rcases h.holds.cases h.fresh hu with ⟨hu, hown⟩ | ⟨v, -, rfl⟩
    · rw [h.elsewhere hown, h.unit_of_use hu, Option.or_self]
    · exact absurd hi (Nat.not_lt.mpr (Nat.le_add_left _ _))
  · rw [resolve_elsewhere h.plain hmem, Option.none_or]

/-- The distances known to both programs. -/
def setting : Setting := ⟨known, known ∪ B', k, fun _ => h.agree⟩

theorem fits_copying : Stmt.FitsEach ⟨known, k, false⟩ [] (p.fill (ℓ.copying id)) := by
  have hmade := h.holds.made
  refine fits_of_resolve h.copying hmade.uses.nodup hmade.uses.proper hmade.tidy nofun fun u hu => ?_
  exact ⟨(hmade.uses.within u hu).2.trans_le h.fresh, h.unit_of_use hu⟩

theorem fits_plain : Stmt.FitsEach ⟨known ∪ B', k + k, false⟩ [] (p.fill (ℓ.plain.shift k)) := by
  have hmade := h.holds.made
  refine fits_of_resolve h.plain (h.holds.nodup h.fresh) (h.holds.proper h.fresh) (h.holds.tidy k) nofun fun u hu => ?_
  simp only [Std.ExtTreeMap.getElem?_union]
  rcases h.holds.cases h.fresh hu with ⟨hu, hown⟩ | ⟨v, hv, rfl⟩
  · rw [h.elsewhere hown, h.unit_of_use hu, Option.or_self]
    exact ⟨((hmade.uses.within u hu).2.trans_le h.fresh).trans_le (Nat.le_add_left k k), rfl⟩
  · change v.id + k < k + k ∧ B'[v.id + k]?.or known[v.id + k]? = B'[v.id + k]?
    rw [h.beyond _ (Nat.le_add_left k v.id), Option.or_none]
    exact ⟨Nat.add_lt_add_right ((hmade.uses.within v hv).2.trans_le h.fresh) k, rfl⟩

/-- In both programs the loop stands at the same place of the layout. -/
theorem fits : ∃ l, (ℓ.copying id).Fits ⟨known, k, false⟩ l ∧ (ℓ.plain.shift k).Fits ⟨known ∪ B', k + k, false⟩ l := by
  obtain ⟨l, hl⟩ := p.fits_fill []
  exact ⟨l, hl _ _ h.fits_copying, hl _ _ h.fits_plain⟩

/-- What the user wrote in the loop refers to the same declarations in both programs. -/
theorem aligned : ℓ.Aligned h.setting k := by
  obtain ⟨l, hcopying, hplain⟩ := h.fits
  exact ℓ.aligned_of_fits rfl rfl hcopying hplain h.holds.clear h.holds.declares

end Sketch.Twins

section Wires

variable {c : Chart} {l : Layout} {x : Token} {body : Stmt} {d : Nat}

theorem carrier_ne (x : Token) : x.lexeme ≠ (carrier x).lexeme := by
  intro e
  have hlength := congrArg String.length e
  simp [carrier] at hlength

/-- The nodes that a loop body with a copy of the variable has of its own refer to the variable, the copy and the
carrier. -/
theorem wired_of_fits (h : (iteration id x body).Fits c l) (hd : l.hops? x.lexeme = some d) (hbody : body.declares = []) :
    Wired c.bindings id d := by
  obtain ⟨-, ⟨hvar, -, hinner, -⟩, houter, -⟩ := h
  rw [hbody] at hinner
  have hx := carrier_ne x
  have hown := (hvar.2 _ rfl _ (List.mem_singleton.mpr rfl)).2
  have hcopy := (hinner ⟨.read, id + 2, x⟩ (by simp [Expr.uses])).2
  have hout := (hinner ⟨.assign, id + 1, carrier x⟩ (by simp [Expr.uses])).2
  have hcarried := (houter ⟨.read, id + 4, carrier x⟩ (by simp [Expr.uses])).2
  have hback := (houter ⟨.assign, id + 3, x⟩ (by simp [Expr.uses])).2
  simp only [Stmt.declares, Layout.declare, List.nil_append, List.append_nil, Layout.hops?_cons, List.mem_singleton,
    List.not_mem_nil, hx, hx.symm, hd, if_true, if_false, Option.map_some, reduceCtorEq] at hown hcopy hout hcarried hback
  exact ⟨hown, hout, hcopy, hback, hcarried⟩

end Wires

theorem Sketch.Twins.wired {known : Bindings} (h : p.Twins ℓ id globals lo hi k B B' known) :
    Wired known id ℓ.inset := by
  obtain ⟨l, hcopying, -⟩ := h.fits
  rw [ℓ.copying_eq] at hcopying
  obtain ⟨-, -, -, hinner, -⟩ := VarLoop.fits_parts rfl hcopying
  refine wired_of_fits hinner ?_ h.holds.declares
  rw [ℓ.hops_around, if_pos rfl]

end LoxLang
