import LoxLang.Proofs.Counting.Lowering
import LoxLang.Proofs.Heap

/-! Code with distances of its own in each of two programs. The frames there differ in number, so a distance in one
program stands for another in the other. Code is aligned if the distances of each of its nodes stand for one another. -/

namespace LoxLang.Counting

/-- The distances known in two programs. They agree for the nodes below a limit. -/
structure Setting where
  left : Bindings
  right : Bindings
  limit : NodeId
  agree : ∀ id < limit, right[id]? = left[id]?

/-- How code is run in both programs. -/
structure Manner where
  /-- The second program runs the code with all ids moved up by this number. -/
  shift : Nat
  /-- The distances that stand for one another. -/
  hops : Nat → Nat → Prop
  /-- Whether it runs inside the loop that is unrolled in two ways. -/
  wide : Prop

/-- Distances as they are from one scope further in. -/
def deeper (hops : Nat → Nat → Prop) : Nat → Nat → Prop
  | 0, 0 => True
  | d + 1, d' + 1 => hops d d'
  | _, _ => False

theorem deeper_eq : deeper Eq = Eq := by
  funext d d'
  cases d <;> cases d' <;> simp [deeper]

namespace Manner

/-- Code that both programs share, with the same distances. -/
def shared : Manner := ⟨0, Eq, False⟩

def inner (μ : Manner) : Manner := { μ with hops := deeper μ.hops }

theorem inner_shared : shared.inner = shared := by rw [inner, shared, deeper_eq]

end Manner

end Counting

open Counting

/-- The distances of a use stand for one another. The frame of the instance is the one just inside that of the
superclass, so for `super` the distances before them do, too. -/
def UseKind.Meets (kind : UseKind) (hops : Nat → Nat → Prop) (d d' : Nat) : Prop :=
  hops d d' ∧ (kind = .inherited → deeper hops d d')

variable (S : Setting) (μ : Manner)

def Use.Aligned (u : Use) : Prop := Option.Rel (u.kind.Meets μ.hops) S.left[u.id]? S.right[u.id + μ.shift]?

def Expr.Aligned (e : Expr) : Prop := ∀ u ∈ e.uses, u.Aligned S μ

mutual

/-- Functions and classes are declared by shared code only, for they keep the code they are declared with. -/
def Stmt.Aligned (μ : Manner) : Stmt → Prop
  | .expression e | .print e => e.Aligned S μ
  | .var _ initial => μ.hops 0 0 ∧ ∀ e ∈ initial, e.Aligned S μ
  | .block body => Stmt.AlignedEach μ.inner body
  | .branch condition yes no => condition.Aligned S μ ∧ yes.Aligned μ ∧ Stmt.AlignedOption μ no
  | .loop condition body => condition.Aligned S μ ∧ body.Aligned μ
  | .function f => μ = .shared ∧ ∀ u ∈ f.uses, u.id < S.limit
  | .ret _ value => ∀ e ∈ value, e.Aligned S μ
  | .classDecl _ superclass methods =>
    μ = .shared ∧ (∀ u ∈ superclass, u.use.Aligned S μ) ∧ ∀ f ∈ methods, ∀ u ∈ f.uses, u.id < S.limit

def Stmt.AlignedEach (μ : Manner) : List Stmt → Prop
  | [] => True
  | s :: rest => s.Aligned μ ∧ Stmt.AlignedEach μ rest

def Stmt.AlignedOption (μ : Manner) : Option Stmt → Prop
  | none => True
  | some s => s.Aligned μ

end

variable {S μ}

section Shared

theorem Use.aligned_shared {u : Use} (h : u.id < S.limit) : u.Aligned S .shared := by
  have hrefl : ∀ d : Option Nat, Option.Rel (u.kind.Meets Eq) d d := fun d => by
    cases d with
    | none => exact .none
    | some d => exact .some ⟨rfl, fun _ => by rw [deeper_eq]⟩
  unfold Use.Aligned
  rw [Manner.shared, Nat.add_zero, S.agree _ h]
  exact hrefl _

theorem Expr.aligned_shared {e : Expr} (h : ∀ u ∈ e.uses, u.id < S.limit) : e.Aligned S .shared := fun u hu =>
  Use.aligned_shared (h u hu)

theorem Expr.aligned_shared_of_option {e : Option Expr} (h : ∀ u ∈ Expr.usesOption e, u.id < S.limit) :
    ∀ e' ∈ e, e'.Aligned S .shared := by
  rintro e' rfl
  exact Expr.aligned_shared h

theorem Function.limit_of_usesEach {fs : List Function} (h : ∀ u ∈ Function.usesEach fs, u.id < S.limit) :
    ∀ f ∈ fs, ∀ u ∈ f.uses, u.id < S.limit := by
  induction fs with
  | nil => simp
  | cons f rest ih =>
    rw [Function.usesEach, List.forall_mem_append] at h
    exact List.forall_mem_cons.mpr ⟨h.1, ih h.2⟩

mutual

/-- All code with nodes below the limit is shared. -/
theorem Stmt.aligned_shared : ∀ (s : Stmt), (∀ u ∈ s.uses, u.id < S.limit) → s.Aligned S .shared
  | .expression _, h | .print _, h => Expr.aligned_shared h
  | .var _ _, h => ⟨rfl, Expr.aligned_shared_of_option h⟩
  | .block body, h => by
    rw [Stmt.Aligned, Manner.inner_shared]
    exact Stmt.aligned_sharedEach body h
  | .branch _ yes no, h => by
    rw [Stmt.uses, List.forall_mem_append, List.forall_mem_append] at h
    exact ⟨Expr.aligned_shared h.1.1, yes.aligned_shared h.1.2, Stmt.aligned_sharedOption no h.2⟩
  | .loop _ body, h => by
    rw [Stmt.uses, List.forall_mem_append] at h
    exact ⟨Expr.aligned_shared h.1, body.aligned_shared h.2⟩
  | .function _, h => ⟨rfl, h⟩
  | .ret _ _, h => Expr.aligned_shared_of_option h
  | .classDecl _ superclass _, h => by
    rw [Stmt.uses, List.forall_mem_append] at h
    refine ⟨rfl, ?_, Function.limit_of_usesEach h.2⟩
    rintro u rfl
    exact Use.aligned_shared (h.1 u.use List.mem_cons_self)

theorem Stmt.aligned_sharedEach : ∀ (body : List Stmt), (∀ u ∈ Stmt.usesEach body, u.id < S.limit) →
    Stmt.AlignedEach S .shared body
  | [], _ => trivial
  | s :: rest, h => by
    rw [Stmt.usesEach, List.forall_mem_append] at h
    exact ⟨s.aligned_shared h.1, Stmt.aligned_sharedEach rest h.2⟩

theorem Stmt.aligned_sharedOption : ∀ (s : Option Stmt), (∀ u ∈ Stmt.usesOption s, u.id < S.limit) →
    Stmt.AlignedOption S .shared s
  | none, _ => trivial
  | some s, h => s.aligned_shared h

end

end Shared

section Layouts

/-- Layouts in which the distances of all names but one stand for one another. -/
def Layout.Opposite (y : String) (bound : Prop) (hops : Nat → Nat → Prop) (l l' : Layout) : Prop :=
  ∀ z, z ≠ y ∨ bound → Option.Rel hops (l.hops? z) (l'.hops? z)

theorem Layout.opposite_refl (y : String) (bound : Prop) (l : Layout) : l.Opposite y bound Eq l := fun z _ => by
  cases l.hops? z with
  | none => exact .none
  | some d => exact .some rfl

variable {y : String} {bound : Prop} {hops : Nat → Nat → Prop} {l l' : Layout} {c c' : Chart} {own : Option String}

theorem Layout.Opposite.inner (h : l.Opposite y bound hops l') :
    Layout.Opposite y bound (deeper hops) ([] :: l) ([] :: l') := fun z hz => by
  have hrel := h z hz
  rw [Layout.hops?_cons_of_not_mem (by simp), Layout.hops?_cons_of_not_mem (by simp)]
  generalize l.hops? z = d, l'.hops? z = d' at hrel
  cases hrel with
  | none => exact .none
  | some hd => exact .some hd

theorem Layout.Opposite.declare {scope scope' : List String}
    (h : Layout.Opposite y bound hops (scope :: l) (scope' :: l')) (hzero : hops 0 0) (names : List String) :
    Layout.Opposite y (bound ∨ y ∈ names) hops (Layout.declare names (scope :: l))
      (Layout.declare names (scope' :: l')) := by
  intro z hz
  by_cases hmem : z ∈ names
  · rw [Layout.declare, Layout.declare, Layout.hops?_cons_of_mem (List.mem_append_left _ hmem),
      Layout.hops?_cons_of_mem (List.mem_append_left _ hmem)]
    exact .some hzero
  · rw [Layout.hops?_declare_of_not_mem hmem, Layout.hops?_declare_of_not_mem hmem]
    refine h z ?_
    rcases hz with hz | hz | hz
    · exact .inl hz
    · exact .inr hz
    · exact .inl fun e => hmem (e ▸ hz)

variable {n : Nat} {wide : Prop}

/-- Right distances in opposite layouts stand for one another. -/
theorem Use.aligned_of_fits (hl : S.left = c.bindings) (hr : S.right = c'.bindings) (hy : y ∉ reserved)
    (h : l.Opposite y bound hops l') (hown : own.isSome → hops 0 0) {u : Use} (hu : u.Fits c own l)
    (hu' : (u.shift n).Fits c' own l') (hs : bound ∨ u.token.lexeme ≠ y) : u.Aligned S ⟨n, hops, wide⟩ := by
  obtain ⟨kind, id, token⟩ := u
  have hname := h token.lexeme hs.symm
  obtain ⟨-, hu⟩ := hu
  obtain ⟨-, hu'⟩ : Use.Fits c' own l' ⟨kind, id + n, token⟩ := hu'
  unfold Use.Aligned
  rw [hl, hr]
  dsimp only at hu hu' ⊢
  have hplain : ∀ d d', hops d d' → kind ≠ .inherited → kind.Meets hops d d' := fun d d' hd hk => ⟨hd, fun e => absurd e hk⟩
  cases kind with
  | read | self =>
    rw [hu, hu']
    exact rel_imp hname fun d d' hd => hplain d d' hd (by simp)
  | assign =>
    dsimp only at hu hu'
    split at hu <;> split at hu'
    · rename_i hself _
      rw [hu.2, hu'.2]
      exact .some (hplain 0 0 (hown (by rw [hself]; rfl)) (by simp))
    · contradiction
    · contradiction
    · rw [hu, hu']
      exact rel_imp hname fun d d' hd => hplain d d' hd (by simp)
  | inherited =>
    obtain ⟨hsuper, d, hthis, hbehind, hd⟩ := hu
    obtain ⟨-, d', hthis', hbehind', hd'⟩ := hu'
    have hreserved : ∀ {x}, x ∈ reserved → x ≠ y ∨ bound := fun hx => .inl fun e => hy (e ▸ hx)
    have hinstance := h "this" (hreserved (by simp [reserved]))
    have hclass := h "super" (hreserved (by simp [reserved]))
    rw [hthis, hthis'] at hinstance
    rw [hbehind, hbehind'] at hclass
    rw [hd, hd']
    cases hinstance with
    | some hinstance =>
      cases hclass with
      | some hclass => exact .some ⟨hclass, fun _ => hinstance⟩

theorem Expr.aligned_of_fits (hl : S.left = c.bindings) (hr : S.right = c'.bindings) (hy : y ∉ reserved)
    (h : l.Opposite y bound hops l') (hown : own.isSome → hops 0 0) {e : Expr} (he : e.Fits c own l)
    (he' : (e.shift n).Fits c' own l') (hs : e.Spares y bound) : e.Aligned S ⟨n, hops, wide⟩ := by
  intro u hu
  refine Use.aligned_of_fits hl hr hy h hown (he u hu) (he' _ ?_) (hs.imp_right fun hs => hs u hu)
  rw [e.uses_shift]
  exact List.mem_map_of_mem hu

theorem Expr.aligned_of_fits_option (hl : S.left = c.bindings) (hr : S.right = c'.bindings) (hy : y ∉ reserved)
    (h : l.Opposite y bound hops l') (hown : own.isSome → hops 0 0) {e : Option Expr} (he : ∀ e' ∈ e, e'.Fits c own l)
    (he' : ∀ e' ∈ e.map (Expr.shift n), e'.Fits c' own l') (hs : ∀ e' ∈ e, e'.Spares y bound) :
    ∀ e' ∈ e, e'.Aligned S ⟨n, hops, wide⟩ := by
  rintro e' rfl
  exact Expr.aligned_of_fits hl hr hy h hown (he e' rfl) (he' _ rfl) (hs e' rfl)

mutual

/-- Statements that fit opposite layouts are aligned. One that declares a variable stands just inside a scope. -/
theorem Stmt.aligned_of_fits (hl : S.left = c.bindings) (hr : S.right = c'.bindings) (hy : y ∉ reserved) :
    ∀ (s : Stmt) {bound : Prop} {hops : Nat → Nat → Prop} {l l' : Layout}, s.Clear y bound →
      (s.declares = [] ∨ hops 0 0 ∧ ∀ x, l'.own x = l.own x) → l.Opposite y bound hops l' → s.Fits c l → (s.shift n).Fits c' l' →
        s.Aligned S ⟨n, hops, wide⟩
  | .expression _, _, _, _, _, hc, _, h, hs, hs' | .print _, _, _, _, _, hc, _, h, hs, hs' =>
    Expr.aligned_of_fits hl hr hy h (by simp) hs hs' hc
  | .var name _, _, _, _, _, hc, hd, h, hs, hs' => by
    obtain ⟨hzero, hown⟩ := hd.resolve_left (List.cons_ne_nil _ _)
    refine ⟨hzero, Expr.aligned_of_fits_option hl hr hy h (fun _ => hzero) hs.2 (fun e he => ?_) hc.2⟩
    rw [← hown]
    exact hs'.2 e he
  | .block body, _, _, _, _, hc, _, h, hs, hs' =>
    Stmt.aligned_of_fitsEach hl hr hy body hc trivial h.inner hs hs'
  | .branch _ yes no, _, _, _, _, hc, _, h, hs, hs' =>
    ⟨Expr.aligned_of_fits hl hr hy h (by simp) hs.1 hs'.1 hc.1,
      yes.aligned_of_fits hl hr hy hc.2.1 (.inl hs.2.2.1) h hs.2.1 hs'.2.1,
      Stmt.aligned_of_fitsOption hl hr hy no hc.2.2.2 h hs.2.2.2 hs'.2.2.2⟩
  | .loop _ body, _, _, _, _, hc, _, h, hs, hs' =>
    ⟨Expr.aligned_of_fits hl hr hy h (by simp) hs.1 hs'.1 hc.1,
      body.aligned_of_fits hl hr hy hc.2.1 (.inl hs.2.2) h hs.2.1 hs'.2.1⟩
  | .ret _ _, _, _, _, _, hc, _, h, hs, hs' => Expr.aligned_of_fits_option hl hr hy h (by simp) hs hs' hc
  | .function _, _, _, _, _, hc, _, _, _, _ | .classDecl _ _ _, _, _, _, _, hc, _, _, _, _ => hc.elim

theorem Stmt.aligned_of_fitsEach (hl : S.left = c.bindings) (hr : S.right = c'.bindings) (hy : y ∉ reserved) :
    ∀ (body : List Stmt) {bound : Prop} {hops : Nat → Nat → Prop} {scope scope' : List String} {l l' : Layout},
      Stmt.ClearEach y bound body → hops 0 0 → Layout.Opposite y bound hops (scope :: l) (scope' :: l') →
        Stmt.FitsEach c (scope :: l) body → Stmt.FitsEach c' (scope' :: l') (Stmt.shiftEach n body) →
          Stmt.AlignedEach S ⟨n, hops, wide⟩ body
  | [], _, _, _, _, _, _, _, _, _, _, _ => trivial
  | s :: rest, _, _, scope, scope', l, l', hc, hzero, h, hs, hs' => by
    have hown : ∀ x, Layout.own x (scope' :: l') = Layout.own x (scope :: l) := fun _ => rfl
    refine ⟨s.aligned_of_fits hl hr hy hc.1 (.inr ⟨hzero, hown⟩) h hs.1 hs'.1, ?_⟩
    have hrest' := hs'.2
    rw [s.declares_shift] at hrest'
    exact Stmt.aligned_of_fitsEach hl hr hy rest hc.2 hzero (h.declare hzero s.declares) hs.2 hrest'

theorem Stmt.aligned_of_fitsOption (hl : S.left = c.bindings) (hr : S.right = c'.bindings) (hy : y ∉ reserved) :
    ∀ (s : Option Stmt) {bound : Prop} {hops : Nat → Nat → Prop} {l l' : Layout}, Stmt.ClearOption y bound s →
      l.Opposite y bound hops l' → Stmt.FitsOption c l s → Stmt.FitsOption c' l' (Stmt.shiftOption n s) →
        Stmt.AlignedOption S ⟨n, hops, wide⟩ s
  | none, _, _, _, _, _, _, _, _ => trivial
  | some s, _, _, _, _, hc, h, hs, hs' => s.aligned_of_fits hl hr hy hc.1 (.inl hc.2) h hs.1 hs'.1

end

end Layouts

namespace VarLoop

open Grammar

variable (ℓ : VarLoop)

def shift (n : Nat) : VarLoop where
  name := ℓ.name
  initial := ℓ.initial.map (Expr.shift n)
  condition := ℓ.condition.map (Expr.shift n)
  increment := ℓ.increment.map (Expr.shift n)
  body := ℓ.body.shift n

theorem test_shift (n : Nat) : (ℓ.shift n).test = ℓ.test.shift n := by
  unfold test shift
  cases ℓ.condition <;> rfl

theorem plain_shift (n : Nat) : ℓ.plain.shift n = (ℓ.shift n).plain := by
  rw [plain_eq, plain_eq, test_shift]
  unfold round shift
  cases ℓ.increment <;> rfl

/-- How many scopes there are around the body inside that of the variable. -/
def inset : Nat :=
  match ℓ.increment with
  | some _ => 1
  | none => 0

/-- Where the body of the plain loop stands. -/
def around (l : Layout) : Layout :=
  match ℓ.increment with
  | some _ => [] :: [ℓ.name.lexeme] :: l
  | none => [ℓ.name.lexeme] :: l

theorem around_shift (n : Nat) (l : Layout) : (ℓ.shift n).around l = ℓ.around l := by
  unfold around shift
  cases ℓ.increment <;> rfl

theorem hops_around (l : Layout) (z : String) :
    (ℓ.around l).hops? z = if z = ℓ.name.lexeme then some ℓ.inset else (l.hops? z).map (· + (1 + ℓ.inset)) := by
  unfold around inset
  cases ℓ.increment with
  | none => simp only [Layout.hops?_cons, List.mem_singleton]
  | some e =>
    simp only [Layout.hops?_cons, List.mem_singleton, List.not_mem_nil, if_false]
    split
    · rfl
    · rw [Option.map_map]
      rfl

section Parts

variable {ℓ} {c : Chart} {l : Layout} {id : NodeId}

theorem fits_round {inner : Stmt} (h : (ℓ.round inner).Fits c ([ℓ.name.lexeme] :: l)) (hinner : inner.declares = []) :
    inner.Fits c (ℓ.around l) ∧ ∀ e ∈ ℓ.increment, e.Fits c none (ℓ.around l) := by
  unfold round at h
  unfold around
  cases hi : ℓ.increment with
  | none =>
    rw [hi] at h
    exact ⟨h, nofun⟩
  | some e =>
    rw [hi] at h
    obtain ⟨hfirst, hsecond, -⟩ := h
    rw [hinner, Layout.declare_nil] at hsecond
    exact ⟨hfirst, fun e' he' => Option.some.inj he' ▸ hsecond⟩

/-- What there is in a loop, with what runs its body, and where it stands. -/
theorem fits_parts {inner : Stmt} (hinner : inner.declares = [])
    (h : (Stmt.block [.var ℓ.name ℓ.initial, .loop ℓ.test (ℓ.round inner)]).Fits c l) :
    (Stmt.var ℓ.name ℓ.initial).Fits c ([] :: l) ∧ ℓ.test.Fits c none ([ℓ.name.lexeme] :: l) ∧
      (ℓ.round inner).Fits c ([ℓ.name.lexeme] :: l) ∧ inner.Fits c (ℓ.around l) ∧
        ∀ e ∈ ℓ.increment, e.Fits c none (ℓ.around l) := by
  obtain ⟨hvar, ⟨htest, hround, -⟩, -⟩ := h
  exact ⟨hvar, htest, hround, fits_round hround hinner⟩

theorem fits_body {x : Token} {body : Stmt} (h : (iteration id x body).Fits c l) :
    body.Fits c ([x.lexeme] :: [(carrier x).lexeme] :: l) := by
  obtain ⟨-, ⟨-, hbody, -⟩, -⟩ := h
  exact hbody

end Parts

end VarLoop

/-- The distances from the body of a loop in both programs: that of its variable, and those of all that is declared
around the loop. From inside the copy there are two scopes more. -/
def Counting.displaced (k d d' : Nat) : Prop := d = 0 ∧ d' = k ∨ ∃ t, d = t + (3 + k) ∧ d' = t + (1 + k)

theorem VarLoop.opposite_around (ℓ : VarLoop) (l : Layout) :
    Layout.Opposite (Grammar.carrier ℓ.name).lexeme False (displaced ℓ.inset)
      ([ℓ.name.lexeme] :: [(Grammar.carrier ℓ.name).lexeme] :: ℓ.around l) (ℓ.around l) := by
  intro z hz
  have hcarrier : z ∉ [(Grammar.carrier ℓ.name).lexeme] := by simpa using hz
  rw [ℓ.hops_around]
  by_cases hx : z = ℓ.name.lexeme
  · rw [if_pos hx, Layout.hops?_cons_of_mem (List.mem_singleton.mpr hx)]
    exact .some (.inl ⟨rfl, rfl⟩)
  · rw [if_neg hx, Layout.hops?_cons_of_not_mem (mt List.mem_singleton.mp hx), Layout.hops?_cons_of_not_mem hcarrier,
      ℓ.hops_around, if_neg hx]
    cases l.hops? z with
    | none => exact .none
    | some t => exact .some (.inr ⟨t, by dsimp only; omega, rfl⟩)

/-- All that the user wrote in a loop refers in both lowerings to what corresponds. -/
structure VarLoop.Aligned (S : Setting) (n : Nat) (ℓ : VarLoop) : Prop where
  declaration : (Stmt.var ℓ.name ℓ.initial).Aligned S ⟨n, Eq, True⟩
  test : ℓ.test.Aligned S ⟨n, Eq, True⟩
  increment : ∀ e ∈ ℓ.increment, e.Aligned S ⟨n, Eq, True⟩
  body : ℓ.body.Aligned S ⟨n, displaced ℓ.inset, True⟩

theorem carrier_not_reserved (x : Token) : (Grammar.carrier x).lexeme ∉ reserved := by
  have hlast : (Grammar.carrier x).lexeme.toList.getLast? = some '\'' := by simp [Grammar.carrier]
  intro h
  rw [reserved, List.mem_cons, List.mem_singleton] at h
  rcases h with h | h <;> rw [h] at hlast <;> simp at hlast

theorem VarLoop.aligned_of_fits (ℓ : VarLoop) {S : Setting} {c c' : Chart} {l : Layout} {id : NodeId} {n : Nat}
    (hl : S.left = c.bindings) (hr : S.right = c'.bindings) (hcopying : (ℓ.copying id).Fits c l)
    (hplain : (ℓ.plain.shift n).Fits c' l) (hclear : ℓ.body.Clear (Grammar.carrier ℓ.name).lexeme False)
    (hdeclares : ℓ.body.declares = []) : ℓ.Aligned S n := by
  rw [ℓ.copying_eq] at hcopying
  rw [ℓ.plain_shift, VarLoop.plain_eq] at hplain
  obtain ⟨hvar, htest, -, hinner, hincrement⟩ := fits_parts rfl hcopying
  obtain ⟨hvar', htest', -, hbody', hincrement'⟩ := fits_parts ((ℓ.body.declares_shift n).trans hdeclares) hplain
  rw [around_shift] at hbody' hincrement'
  have hy := carrier_not_reserved ℓ.name
  have hsame : ∀ l, Layout.Opposite (Grammar.carrier ℓ.name).lexeme True Eq l l := Layout.opposite_refl _ _
  constructor
  · exact ⟨rfl, Expr.aligned_of_fits_option hl hr hy (hsame _) (fun _ => rfl) hvar.2 hvar'.2 fun _ _ => .inl trivial⟩
  · rw [test_shift] at htest'
    exact Expr.aligned_of_fits hl hr hy (hsame _) (fun _ => rfl) htest htest' (.inl trivial)
  · exact Expr.aligned_of_fits_option hl hr hy (hsame _) (fun _ => rfl) hincrement hincrement' fun _ _ => .inl trivial
  · exact ℓ.body.aligned_of_fits hl hr hy hclear (.inl hdeclares) (ℓ.opposite_around l) (fits_body hinner) hbody'

end LoxLang
