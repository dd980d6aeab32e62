import LoxLang.Proofs.Depth.Calls

/-! The parts that code begins to run, in the order in which they begin. They are the moments that the code leads to, so
what is known of all parts of a moment is known of all that it visits. -/

namespace LoxLang

/-- What is made of the value and the state of a run that does not halt. -/
def Halting.upon {σ α β : Type} (run : Halting σ α) (s : σ) (next : α → σ → List β) : List β :=
  match run s with
  | .ok a s => next a s
  | .error _ _ => []

namespace Halting

variable {σ α β : Type} {run : Halting σ α} {next : α → σ → List β} {s t : σ} {a : α} {h : Halt} {b : β}

theorem upon_of_ok (e : run s = .ok a t) : run.upon s next = next a t := by rw [upon, e]

theorem upon_of_error (e : run s = .error h t) : run.upon s next = [] := by rw [upon, e]

theorem mem_upon : b ∈ run.upon s next ↔ ∃ a t, run s = .ok a t ∧ b ∈ next a t := by
  cases e : run s with
  | ok a t => simp [upon_of_ok e]
  | error h t => simp [upon_of_error e]

theorem upon_nil : run.upon s (fun _ _ => ([] : List β)) = [] := by
  unfold upon
  split <;> rfl

end Halting

/-- How many parts code can have at its own bound. -/
def Code.width : Code → Nat
  | expr _ _ | stmt _ => 0
  | arguments _ es => es.length + 1
  | body statements | unit statements => statements.length + 1

namespace Moment

open Run

/-- The parts of an expression behind its first operand, which has a value. -/
def partsBehind (n : Nat) (d : Option Token) (a : Value) (m : Machine) : Expr → List Moment
  | .call _ paren es =>
    ⟨n, .arguments d es, m⟩ :: (each (eval n) es).upon m fun values m₂ =>
      (admitCall paren a values.length).upon m₂ fun _ m₃ =>
        (({ m₃ with depth := m₃.depth + 1 } : Machine).called? values a).toList.map fun entry => ⟨n, .body entry.1, entry.2⟩
  | e => (e.second? a).toList.map fun e' => ⟨n, .expr d e', m⟩

/-- The parts of an expression. -/
def operands (n : Nat) (d : Option Token) (m : Machine) (e : Expr) : List Moment :=
  match e.first? with
  | none => []
  | some e' => ⟨n, .expr d e', m⟩ :: (eval n e').upon m fun a m' => partsBehind n d a m' e

/-- What goes on behind a statement of a body or a round of a loop: nothing if it returns. -/
def goingOn (k : Moment) : Completion → List Moment
  | .normal => [k]
  | .returned _ => []

/-- The parts of a statement. -/
def partsOf (n : Nat) (m : Machine) : Stmt → List Moment
  | .block body => [⟨n, .body body, m.enter m.current ∅⟩]
  | .loop condition body =>
    ⟨n, .expr none condition, m⟩ :: (eval n condition).upon m fun v m' =>
      if v.truthy then
        ⟨n, .stmt body, m'⟩ :: (exec n body).upon m' fun c m'' => goingOn ⟨n, .stmt (.loop condition body), m''⟩ c
      else []
  | s => match s.value? with
    | none => []
    | some (d, e) => ⟨n, .expr d e, m⟩ :: (eval n e).upon m fun v m' =>
      (s.chosen? v).toList.map fun s' => ⟨n, .stmt s', m'⟩

/-- The part of a unit that runs its first statement. -/
def performs (n : Nat) (m : Machine) : Stmt → Moment
  | .expression e => if m.prompt then ⟨n, .expr none e, m⟩ else ⟨n, .stmt (.expression e), m⟩
  | s => ⟨n, .stmt s, m⟩

/-- The parts that code begins to run, the first to begin in front. -/
def parts (k : Moment) : List Moment :=
  match k.code, k.bound with
  | .expr _ _, 0 | .stmt _, 0 | .arguments _ [], _ | .body [], _ | .unit [], _ => []
  | .expr d e, n + 1 => operands n d k.machine e
  | .arguments d (e :: rest), n =>
    ⟨n, .expr d e, k.machine⟩ :: (eval n e).upon k.machine fun _ m => [⟨n, .arguments d rest, m⟩]
  | .stmt s, n + 1 => partsOf n k.machine s
  | .body (s :: rest), n =>
    ⟨n, .stmt s, k.machine⟩ :: (exec n s).upon k.machine fun c m => goingOn ⟨n, .body rest, m⟩ c
  | .unit (s :: rest), n =>
    performs n k.machine s :: (perform n s).upon k.machine fun _ m => [⟨n, .unit rest, m⟩]

variable {k k' : Moment} {n : Nat} {d : Option Token} {e : Expr} {s : Stmt} {m : Machine}

theorem mem_goingOn {c : Completion} : k' ∈ goingOn k c ↔ c = .normal ∧ k' = k := by
  cases c <;> simp [goingOn]

theorem operands_of_first {e' : Expr} (h : e.first? = some e') : operands n d m e =
    ⟨n, .expr d e', m⟩ :: (eval n e').upon m fun a m' => partsBehind n d a m' e := by rw [operands, h]

/-- Only a call has other parts than its operands. -/
theorem partsBehind_of_second {a : Value} {e' : Expr} (h : e.second? a = some e') :
    partsBehind n d a m e = [⟨n, .expr d e', m⟩] := by
  cases e with
  | call => cases h
  | _ => rw [partsBehind, h] <;> first | rfl | nofun

theorem partsOf_value {e : Expr} (hv : s.value? = some (d, e)) (hs : ∀ condition body, s ≠ .loop condition body) :
    partsOf n m s = ⟨n, .expr d e, m⟩ :: (eval n e).upon m fun v m' =>
      (s.chosen? v).toList.map fun s' => ⟨n, .stmt s', m'⟩ := by
  cases s with
  | block => cases hv
  | loop => exact absurd rfl (hs _ _)
  | _ => rw [partsOf, hv] <;> nofun

theorem mem_parts_of_starts (h : k.Starts k') : k' ∈ k.parts := by
  cases h with
  | @first n d e e' m hfirst =>
    change _ ∈ operands n d m e
    rw [operands_of_first hfirst]
    exact List.mem_cons_self
  | @second n d e e' e'' a m m' hfirst heval hsecond =>
    change _ ∈ operands n d m e
    rw [operands_of_first hfirst, Halting.upon_of_ok heval, partsBehind_of_second hsecond]
    exact List.mem_cons_of_mem _ List.mem_cons_self
  | @arguments n d callee paren es f m m' heval =>
    change _ ∈ operands n d m (.call callee paren es)
    rw [operands_of_first rfl, Halting.upon_of_ok heval]
    exact List.mem_cons_of_mem _ List.mem_cons_self
  | argument => exact List.mem_cons_self
  | others heval => exact List.mem_cons_of_mem _ (Halting.mem_upon.mpr ⟨_, _, heval, List.mem_singleton_self _⟩)
  | @call n d callee paren es f values body m m₁ m₂ m₃ m₄ h₁ h₂ h₃ hcalled =>
    change _ ∈ operands n d m (.call callee paren es)
    rw [operands_of_first rfl, Halting.upon_of_ok h₁, partsBehind, Halting.upon_of_ok h₂, Halting.upon_of_ok h₃, hcalled]
    exact List.mem_cons_of_mem _ (List.mem_cons_of_mem _ List.mem_cons_self)
  | @value n d s e m hvalue =>
    change _ ∈ partsOf n m s
    cases s with
    | block => cases hvalue
    | loop condition body =>
      cases hvalue
      exact List.mem_cons_self
    | _ =>
      rw [partsOf_value hvalue nofun]
      exact List.mem_cons_self
  | @chosen n d s s' e v m m' hvalue heval hchosen =>
    change _ ∈ partsOf n m s
    cases s with
    | loop condition body =>
      cases hvalue
      rw [Stmt.chosen?] at hchosen
      split at hchosen <;> cases hchosen
      rename_i htrue
      rw [partsOf, Halting.upon_of_ok heval, if_pos htrue]
      exact List.mem_cons_of_mem _ List.mem_cons_self
    | branch =>
      rw [partsOf_value hvalue nofun, Halting.upon_of_ok heval, hchosen]
      exact List.mem_cons_of_mem _ (List.mem_singleton_self _)
    | _ => cases hchosen
  | @again n condition body v m m' m'' heval htrue hexec =>
    change _ ∈ partsOf n m (.loop condition body)
    rw [partsOf, Halting.upon_of_ok heval, if_pos htrue, Halting.upon_of_ok hexec]
    exact List.mem_cons_of_mem _ (List.mem_cons_of_mem _ (List.mem_singleton_self _))
  | block => exact List.mem_singleton_self _
  | statement => exact List.mem_cons_self
  | rest hexec => exact List.mem_cons_of_mem _ (Halting.mem_upon.mpr ⟨_, _, hexec, List.mem_singleton_self _⟩)
  | @shown n e rest m hprompt =>
    change _ ∈ performs n m (.expression e) :: _
    rw [performs, if_pos hprompt]
    exact List.mem_cons_self
  | @performed n s rest m hprompt =>
    change _ ∈ performs n m s :: _
    cases s with
    | expression e =>
      rw [performs, if_neg (by simp [hprompt e rfl])]
      exact List.mem_cons_self
    | _ => exact List.mem_cons_self
  | next hperform => exact List.mem_cons_of_mem _ (Halting.mem_upon.mpr ⟨_, _, hperform, List.mem_singleton_self _⟩)

theorem starts_of_mem_operands (h : k' ∈ operands n d m e) : Starts ⟨n + 1, .expr d e, m⟩ k' := by
  unfold operands at h
  split at h
  · cases h
  rename_i e' hfirst
  rcases List.mem_cons.mp h with rfl | h
  · exact .first hfirst
  obtain ⟨a, t, heval, h⟩ := Halting.mem_upon.mp h
  unfold partsBehind at h
  split at h
  · rename_i callee paren es
    cases hfirst
    rcases List.mem_cons.mp h with rfl | h
    · exact .arguments heval
    obtain ⟨values, m₂, hvalues, h⟩ := Halting.mem_upon.mp h
    obtain ⟨⟨⟩, m₃, hadmit, h⟩ := Halting.mem_upon.mp h
    obtain ⟨⟨body, m₄⟩, hcalled, rfl⟩ := List.mem_map.mp h
    exact .call heval hvalues hadmit (Option.mem_toList.mp hcalled)
  · obtain ⟨e'', hsecond, rfl⟩ := List.mem_map.mp h
    exact .second hfirst heval (Option.mem_toList.mp hsecond)

theorem starts_of_mem_partsOf (h : k' ∈ partsOf n m s) : Starts ⟨n + 1, .stmt s, m⟩ k' := by
  unfold partsOf at h
  split at h
  · cases List.mem_singleton.mp h
    exact .block
  · rename_i condition body
    rcases List.mem_cons.mp h with rfl | h
    · exact .value rfl
    obtain ⟨v, t, heval, h⟩ := Halting.mem_upon.mp h
    split at h
    · rename_i htrue
      rcases List.mem_cons.mp h with rfl | h
      · exact .chosen rfl heval (if_pos htrue)
      obtain ⟨c, u, hexec, h⟩ := Halting.mem_upon.mp h
      obtain ⟨rfl, rfl⟩ := mem_goingOn.mp h
      exact .again heval htrue hexec
    · cases h
  · split at h
    · cases h
    rename_i d e hvalue
    rcases List.mem_cons.mp h with rfl | h
    · exact .value hvalue
    obtain ⟨v, t, heval, h⟩ := Halting.mem_upon.mp h
    obtain ⟨s', hchosen, rfl⟩ := List.mem_map.mp h
    exact .chosen hvalue heval (Option.mem_toList.mp hchosen)

theorem starts_performs {rest : List Stmt} : Starts ⟨n, .unit (s :: rest), m⟩ (performs n m s) := by
  unfold performs
  split
  · split
    · rename_i hprompt
      exact .shown hprompt
    · rename_i hprompt
      exact .performed fun _ _ => Bool.eq_false_iff.mpr hprompt
  · rename_i hs
    exact .performed fun e he => absurd he (hs e)

/-- The parts of code are the moments that it leads to. -/
theorem mem_parts_iff : k' ∈ k.parts ↔ k.Starts k' := by
  refine ⟨fun h => ?_, mem_parts_of_starts⟩
  obtain ⟨n, code, m⟩ := k
  cases code with
  | expr d e =>
    cases n with
    | zero => cases h
    | succ n => exact starts_of_mem_operands h
  | arguments d es =>
    cases es with
    | nil => cases h
    | cons e rest =>
      rcases List.mem_cons.mp h with rfl | h
      · exact .argument
      obtain ⟨v, t, heval, h⟩ := Halting.mem_upon.mp h
      cases List.mem_singleton.mp h
      exact .others heval
  | stmt s =>
    cases n with
    | zero => cases h
    | succ n => exact starts_of_mem_partsOf h
  | body statements =>
    cases statements with
    | nil => cases h
    | cons s rest =>
      rcases List.mem_cons.mp h with rfl | h
      · exact .statement
      obtain ⟨c, t, hexec, h⟩ := Halting.mem_upon.mp h
      obtain ⟨rfl, rfl⟩ := mem_goingOn.mp h
      exact .rest hexec
  | unit statements =>
    cases statements with
    | nil => cases h
    | cons s rest =>
      rcases List.mem_cons.mp h with rfl | h
      · exact starts_performs
      obtain ⟨⟨⟩, t, hperform, h⟩ := Halting.mem_upon.mp h
      cases List.mem_singleton.mp h
      exact .next hperform

/-- A part has a smaller bound, or it is of one list that has become shorter. -/
theorem smaller_of_starts (h : k.Starts k') :
    Prod.Lex (· < ·) (· < ·) (k'.bound, k'.code.width) (k.bound, k.code.width) := by
  cases h with
  | argument | others | statement | rest | shown | performed | next => exact .right _ (by simp [Code.width])
  | _ => exact .left _ _ (Nat.lt_succ_self _)

/-- What holds of code if it holds of its parts holds of all code. -/
theorem parts_induction {P : Moment → Prop} (hparts : ∀ k : Moment, (∀ p ∈ k.parts, P p) → P k) (k : Moment) : P k :=
  hparts k fun p _ => parts_induction hparts p
termination_by (k.bound, k.code.width)
decreasing_by
  rename_i hp
  exact smaller_of_starts (mem_parts_iff.mp hp)

end Moment

end LoxLang
