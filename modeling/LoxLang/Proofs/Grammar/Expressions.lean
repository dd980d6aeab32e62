import LoxLang.Proofs.Derivation.Readings
import LoxLang.Proofs.Grammar.Readers

/-! The uses of names in an expression that was read: each has a node id of its own, handed out while the expression
was read, and those of `this` and `super` are named so. -/

namespace LoxLang

/-- Uses with node ids of their own in a range. -/
structure Made (lo hi : NodeId) (us : List Use) : Prop where
  nodup : (us.map Use.id).Nodup
  within : ∀ u ∈ us, lo ≤ u.id ∧ u.id < hi
  proper : ∀ u ∈ us, u.Proper

namespace Made

variable {lo mid hi : NodeId} {us vs : List Use}

theorem nil : Made lo hi [] := ⟨.nil, by simp, by simp⟩

theorem single {k : UseKind} {id : NodeId} {t : Token} (h : (Use.mk k id t).Proper) :
    Made id (id + 1) [⟨k, id, t⟩] where
  nodup := List.nodup_singleton _
  within := List.forall_mem_singleton.mpr ⟨le_rfl, Nat.lt_succ_self _⟩
  proper := List.forall_mem_singleton.mpr h

theorem widen (h : Made lo mid us) (hle : mid ≤ hi) : Made lo hi us :=
  ⟨h.nodup, fun u hu => ⟨(h.within u hu).1, (h.within u hu).2.trans_le hle⟩, h.proper⟩

/-- Ids handed out later are others. -/
theorem append (h : Made lo mid us) (h' : Made mid hi vs) (hl : lo ≤ mid) (hr : mid ≤ hi) :
    Made lo hi (us ++ vs) where
  nodup := by
    rw [List.map_append, List.nodup_append]
    refine ⟨h.nodup, h'.nodup, fun i hi j hj => ?_⟩
    obtain ⟨u, hu, rfl⟩ := List.mem_map.mp hi
    obtain ⟨v, hv, rfl⟩ := List.mem_map.mp hj
    exact Nat.ne_of_lt ((h.within u hu).2.trans_le (h'.within v hv).1)
  within u hu := by
    rcases List.mem_append.mp hu with hu | hu
    · exact ⟨(h.within u hu).1, (h.within u hu).2.trans_le hr⟩
    · exact ⟨hl.trans (h'.within u hu).1, (h'.within u hu).2⟩
  proper u hu := (List.mem_append.mp hu).elim (h.proper u) (h'.proper u)

theorem perm (h : Made lo hi us) (hp : us.Perm vs) : Made lo hi vs where
  nodup := (hp.map Use.id).nodup_iff.mp h.nodup
  within u hu := h.within u (hp.mem_iff.mpr hu)
  proper u hu := h.proper u (hp.mem_iff.mpr hu)

/-- A use behind others whose ids were handed out before. -/
theorem snoc {k : UseKind} {t : Token} (h : Made lo mid us) (ht : (Use.mk k mid t).Proper) (hl : lo ≤ mid) :
    Made lo (mid + 1) (⟨k, mid, t⟩ :: us) :=
  (h.append (single ht) hl (Nat.le_succ _)).perm List.perm_append_comm

end Made

theorem Use.proper_read (id : NodeId) {t : Token} (h : t.lexeme ∉ reserved) : (Use.mk .read id t).Proper := h

theorem Use.proper_assign (id : NodeId) {t : Token} (h : t.lexeme ∉ reserved) : (Use.mk .assign id t).Proper := h

theorem Use.proper_self (id : NodeId) {t : Token} (h : t.lexeme = "this") : (Use.mk .self id t).Proper := h

theorem Use.proper_inherited (id : NodeId) {t : Token} (h : t.lexeme = "super") : (Use.mk .inherited id t).Proper := h

/-- Wherever it starts, the reader makes the uses of what it reads. -/
def ReadsExpr (reader : Reader Expr) : Prop := ∀ lo, Reads reader lo fun hi e => Made lo hi e.uses

namespace Grammar

open Reader Reads

variable {nested operand : Reader Expr} {lo mid : NodeId}

theorem reads_primary (h : ReadsExpr nested) : ReadsExpr (primary nested) := by
  intro lo
  refine after_get fun c hc => ?_
  have ht := hc.peek
  dsimp only
  split
  iterate 5 exact after_advance (done .nil)
  · rename_i hk
    exact after_advance (after_fresh (done (.single (Use.proper_self _ (ht.lexeme_this hk)))))
  · rename_i hk
    exact after_advance (after_fresh (done (.single (Use.proper_read _ (ht.not_reserved hk)))))
  · rename_i hk
    exact after_advance (after_expect fun _ _ _ => after_expect fun _ _ _ =>
      after_fresh (done (.single (Use.proper_inherited _ (ht.lexeme_super hk)))))
  · refine after_advance ((h lo).bind fun mid inner hmid hinner => ?_)
    exact after_expect fun _ _ _ => done hinner
  · exact stops_expected _

theorem reads_separated {α : Type} {P : NodeId → NodeId → List α → Prop} {item : Reader α} (what : String)
    (hone : ∀ lo, Reads item lo fun hi a => P lo hi [a])
    (hcons : ∀ {lo mid hi a as}, lo ≤ mid → mid ≤ hi → P lo mid [a] → P mid hi as → P lo hi (a :: as))
    (n count : Nat) (lo : NodeId) : Reads (separated what item n count) lo (P lo) := by
  induction n generalizing count lo with
  | zero => exact stops _
  | succ n ih =>
    have hitem : Reads (itemAndOthers what item n count) lo (P lo) := by
      refine (hone lo).bind fun mid a hmid ha => after_accept fun o => ?_
      cases o with
      | none => exact done ha
      | some t => exact (ih (count + 1) mid).bind fun hi as hhi has => done (hcons hmid hhi ha has)
    rw [separated_succ]
    split
    · exact after_get fun c _ => after_report hitem
    · exact hitem

/-- Items in parentheses. -/
theorem reads_listed {α : Type} {P : NodeId → NodeId → List α → Prop} {item : Reader α} (what : String)
    (hnil : ∀ lo, P lo lo []) (hone : ∀ lo, Reads item lo fun hi a => P lo hi [a])
    (hcons : ∀ {lo mid hi a as}, lo ≤ mid → mid ≤ hi → P lo mid [a] → P mid hi as → P lo hi (a :: as))
    (n : Nat) (lo : NodeId) : Reads (listed what item n) lo (P lo) := by
  refine after_check fun b => ?_
  split
  · exact done (hnil lo)
  · exact reads_separated what hone hcons n 0 lo

theorem reads_arguments (h : ReadsExpr nested) (n : Nat) (lo : NodeId) :
    Reads (listed "arguments" nested n) lo fun hi es => Made lo hi (Expr.usesEach es) := by
  refine reads_listed (P := fun lo hi es => Made lo hi (Expr.usesEach es)) _ (fun _ => .nil) (fun lo => ?_) ?_ n lo
  · exact (h lo).weaken fun hi e _ he => by simpa [Expr.usesEach] using he
  · intro lo mid hi e es hl hr he hes
    exact Made.append (by simpa [Expr.usesEach] using he) hes hl hr

/-- What follows an expression adds uses to it. -/
theorem reads_suffixes (h : ReadsExpr nested) (n : Nat) {lo mid : NodeId} {e : Expr} (hle : lo ≤ mid)
    (he : Made lo mid e.uses) : Reads (suffixes nested n e) mid fun hi e => Made lo hi e.uses := by
  induction n generalizing mid e with
  | zero => exact stops _
  | succ n ih =>
    refine after_accept fun o => ?_
    split
    · refine (reads_arguments h (n + 1) mid).bind fun mid' arguments hmid harguments => ?_
      exact after_expect fun _ _ _ => ih (hle.trans hmid) (he.append harguments hle hmid)
    · refine after_accept fun o => ?_
      split
      · exact after_expect fun _ _ _ => ih hle he
      · exact done he

theorem reads_call (h : ReadsExpr nested) (n : Nat) : ReadsExpr (call nested n) := fun lo =>
  (reads_primary h lo).bind fun _ _ hmid he => reads_suffixes h n hmid he

theorem reads_unary (h : ReadsExpr nested) (n : Nat) : ReadsExpr (unary nested n) := by
  induction n with
  | zero => exact fun lo => stops _
  | succ n ih =>
    refine fun lo => after_acceptIf fun o => ?_
    cases o with
    | none => exact reads_call h (n + 1) lo
    | some operator => exact (ih lo).bind fun _ _ _ he => done he

section Levels

variable {isOperator : Kind → Bool} {node : Expr → Token → Expr → Expr}

theorem reads_chain (hnode : ∀ l t r, (node l t r).uses = l.uses ++ r.uses) (h : ReadsExpr operand) (n : Nat)
    {lo mid : NodeId} {left : Expr} (hle : lo ≤ mid) (hleft : Made lo mid left.uses) :
    Reads (chain isOperator node operand n left) mid fun hi e => Made lo hi e.uses := by
  induction n generalizing mid left with
  | zero => exact stops _
  | succ n ih =>
    refine after_acceptIf fun o => ?_
    cases o with
    | none => exact done hleft
    | some operator =>
      refine (h mid).bind fun mid' right hmid hright => ih (hle.trans hmid) ?_
      rw [hnode]
      exact hleft.append hright hle hmid

theorem reads_level (hnode : ∀ l t r, (node l t r).uses = l.uses ++ r.uses) (h : ReadsExpr operand) (n : Nat) :
    ReadsExpr (level isOperator node operand n) := fun lo =>
  (h lo).bind fun _ _ hmid he => reads_chain hnode h n hmid he

end Levels

theorem uses_binary (l : Expr) (t : Token) (r : Expr) : (Expr.binary l t r).uses = l.uses ++ r.uses := by
  rw [Expr.uses]

theorem uses_logical (l : Expr) (t : Token) (r : Expr) : (Expr.logical l t r).uses = l.uses ++ r.uses := by
  rw [Expr.uses]

theorem reads_factor (h : ReadsExpr nested) (n : Nat) : ReadsExpr (factor nested n) :=
  reads_level uses_binary (reads_unary h n) n

/-- A step reads its target and then assigns it. -/
theorem reads_step {target : Expr} (sign : Token) (hle : lo ≤ mid) (h : Made lo mid target.uses) :
    Reads (step target sign) mid fun hi e => Made lo hi e.uses := by
  unfold step
  split
  · refine after_fresh (done ?_)
    rw [Expr.uses, uses_binary]
    exact ((h.append .nil hle le_rfl).snoc (Use.proper_assign _ (h.proper _ List.mem_cons_self)) hle)
  · exact stops_failAt _ _

theorem reads_sums (h : ReadsExpr operand) (n : Nat) {left : Expr} (hle : lo ≤ mid)
    (hleft : Made lo mid left.uses) : Reads (sums operand n left) mid fun hi e => Made lo hi e.uses := by
  induction n generalizing mid left with
  | zero => exact stops _
  | succ n ih =>
    refine after_acceptIf fun o => ?_
    cases o with
    | none => exact done hleft
    | some sign =>
      refine after_get fun c _ => ?_
      split
      · exact after_advance (reads_step sign hle hleft)
      · refine (h mid).bind fun mid' right hmid hright => ih (hle.trans hmid) ?_
        rw [uses_binary]
        exact hleft.append hright hle hmid

theorem reads_term (h : ReadsExpr nested) (n : Nat) : ReadsExpr (term nested n) := fun lo =>
  (reads_factor h n lo).bind fun _ _ hmid he => reads_sums (reads_factor h n) n hmid he

theorem reads_disjunction (h : ReadsExpr nested) (n : Nat) : ReadsExpr (disjunction nested n) :=
  have hequality := reads_level uses_binary (reads_level uses_binary (reads_term h n) n) n
  reads_level uses_logical (reads_level uses_logical hequality n) n

theorem reads_assignTo {target value : Expr} (equals : Token) {mid' : NodeId} (hle : lo ≤ mid) (hle' : mid ≤ mid')
    (htarget : Made lo mid target.uses) (hvalue : Made mid mid' value.uses) :
    Reads (assignTo target equals value) mid' fun hi e => Made lo hi e.uses := by
  unfold assignTo
  split
  · refine after_fresh (done ?_)
    rw [Expr.uses]
    exact (Made.append .nil hvalue hle hle').snoc (Use.proper_assign _ (htarget.proper _ List.mem_cons_self))
      (hle.trans hle')
  · refine done ?_
    rw [Expr.uses]
    exact Made.append (by simpa [Expr.uses] using htarget) hvalue hle hle'
  · exact after_report (done (htarget.widen hle'))

theorem reads_assignment (h : ReadsExpr nested) (n : Nat) : ReadsExpr (assignment nested n) := by
  refine fun lo => (reads_disjunction h n lo).bind fun mid target hmid htarget => after_accept fun o => ?_
  cases o with
  | none => exact done htarget
  | some equals => exact (h mid).bind fun mid' value hmid' hvalue => reads_assignTo equals hmid hmid' htarget hvalue

theorem reads_expression (n : Nat) : ReadsExpr (expression n) := by
  induction n with
  | zero => exact fun lo => stops _
  | succ n ih => exact reads_assignment ih (n + 1)

end Grammar

end LoxLang
