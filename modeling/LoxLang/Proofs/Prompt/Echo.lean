import LoxLang.Proofs.Bounds
import LoxLang.Proofs.Context
import LoxLang.Proofs.Output.Limits
import LoxLang.Proofs.Prompt.Oblivious

/-! A unit at a prompt beside the same unit without one. The prompt adds to what is written the values of the unit's own
expression statements, each behind what its evaluation writes, and changes nothing else. -/

namespace LoxLang

namespace Machine

/-- What a statement of a unit writes where there is no prompt. -/
def plainText (n : Nat) (s : Stmt) (m : Machine) : String := ((exec n s).after m.silent).output.text

/-- What a prompt writes behind a statement of a unit: the value of an expression, as a line. -/
def echo (n : Nat) (s : Stmt) (m : Machine) : String :=
  match s with
  | .expression e =>
    match eval n e m.silent with
    | .ok v t => t.store.display v ++ "\n"
    | .error _ _ => ""
  | _ => ""

/-- What each statement of a unit writes, up to the first that halts, with what a prompt writes behind it. -/
def utterances (n : Nat) : List Stmt → Machine → List (String × String)
  | [], _ => []
  | s :: rest, m => (m.plainText n s, m.echo n s) ::
    match exec n s m.silent with
    | .ok _ t => utterances n rest t
    | .error _ _ => []

/-- The utterances in order, with or without what a prompt writes. -/
def together (prompt : Bool) (utterances : List (String × String)) : String :=
  String.join (utterances.map fun p => if prompt then p.1 ++ p.2 else p.1)

variable {m t : Machine} {n : Nat} {s : Stmt} {prompt : Bool} {text : String}

theorem together_nil : together prompt [] = "" := rfl

theorem together_cons (p : String × String) (rest : List (String × String)) :
    together prompt (p :: rest) = (if prompt then p.1 ++ p.2 else p.1) ++ together prompt rest := by
  simp [together]

theorem plainText_of_ok {c : Completion} (e : exec n s m.silent = .ok c t) : m.plainText n s = t.output.text := by
  rw [plainText, Halting.after_of_ok e]

theorem plainText_of_error {k : Halt} (e : exec n s m.silent = .error k t) : m.plainText n s = t.output.text := by
  rw [plainText, Halting.after_of_error e]

end Machine

open Machine Run

variable {m t : Machine} {n : Nat} {s : Stmt} {prompt : Bool} {text : String}

/-- Within a bound that suffices for the statement, its expression has the value that it has within the bound below. -/
theorem eval_of_exec {e : Expr} {r : EStateM.Result Halt Machine Completion} (h : exec n (.expression e) m = r)
    (hr : ∀ t, r ≠ .error .exhausted t) : (eval n e >>= fun _ => pure Completion.normal) m = r := by
  have hnext : Halting.Extends (exec n (.expression e)) (exec (n + 1) (.expression e)) := steadfast_exec (.expression e) n
  rcases hnext m with ⟨t, he⟩ | he
  · exact absurd (h.symm.trans he) (hr t)
  · exact he.trans h

/-- Without a prompt, and for what is not an expression, a statement of a unit is run and no more. -/
theorem perform_plain (h : prompt = false ∨ ∀ e, s ≠ .expression e) :
    perform n s (m.writing prompt text) = (exec n s >>= fun _ => pure ()) (m.writing prompt text) := by
  cases s with
  | expression e =>
    obtain rfl := h.resolve_right fun h => h e rfl
    rfl
  | _ => rfl

theorem together_plain (h : prompt = false ∨ ∀ e, s ≠ .expression e) :
    (if prompt then m.plainText n s ++ m.echo n s else m.plainText n s) = m.plainText n s := by
  rcases h with rfl | h
  · rfl
  · have hecho : m.echo n s = "" := by
      cases s with
      | expression e => exact absurd rfl (h e)
      | _ => rfl
    simp [hecho]

theorem print_behind (v : Value) : print v (t.behind prompt text) =
    .ok () (t.writing prompt (text ++ (t.output.text ++ (t.store.display v ++ "\n")))) := by
  simp only [print, Sink.writeLine, behind, writing, ↓reduceIte, String.append_assoc]

theorem perform_shown (e : Expr) :
    perform n (.expression e) (m.writing true text) = (eval n e >>= print) (m.writing true text) := rfl

theorem perform_of_ok {c : Completion} (e : exec n s m.silent = .ok c t) (prompt : Bool) (text : String) :
    perform n s (m.writing prompt text) =
      .ok () (t.writing prompt (text ++ if prompt then m.plainText n s ++ m.echo n s else m.plainText n s)) := by
  by_cases hplain : prompt = false ∨ ∀ e, s ≠ .expression e
  · rw [perform_plain hplain, together_plain hplain, plainText_of_ok e]
    exact Halting.bind_of_ok ((oblivious_exec n s).ok e prompt text)
  · simp only [not_or, Bool.not_eq_false, not_forall, not_not] at hplain
    obtain ⟨rfl, expr, rfl⟩ := hplain
    obtain ⟨v, u, heval, hend⟩ := Halting.bind_eq_ok.mp (eval_of_exec e nofun)
    obtain ⟨-, rfl⟩ := EStateM.Result.ok.inj hend
    rw [perform_shown, Halting.bind_of_ok ((oblivious_eval n expr).ok heval true text), print_behind, plainText_of_ok e, echo,
      heval]
    rfl

theorem perform_of_error {k : Halt} (e : exec n s m.silent = .error k t) (hk : prompt = false ∨ k ≠ .exhausted)
    (text : String) : perform n s (m.writing prompt text) =
      .error k (t.writing prompt (text ++ if prompt then m.plainText n s ++ m.echo n s else m.plainText n s)) := by
  by_cases hplain : prompt = false ∨ ∀ e, s ≠ .expression e
  · rw [perform_plain hplain, together_plain hplain, plainText_of_error e]
    exact Halting.bind_of_error (((oblivious_exec n s).error e).2 prompt text)
  · simp only [not_or, Bool.not_eq_false, not_forall, not_not] at hplain
    obtain ⟨rfl, expr, rfl⟩ := hplain
    have hend := eval_of_exec e fun t h => hk.resolve_left nofun (EStateM.Result.error.inj h).1
    cases heval : eval n expr m.silent with
    | ok v u =>
      rw [Halting.bind_of_ok heval] at hend
      cases hend
    | error k' u =>
      rw [Halting.bind_of_error heval] at hend
      cases hend
      rw [perform_shown, Halting.bind_of_error (((oblivious_eval n expr).error heval).2 true text), plainText_of_error e,
        echo, heval]
      simp only [if_pos, String.append_empty]
      rfl

theorem interpret_cons (n : Nat) (s : Stmt) (rest : List Stmt) :
    interpret n (s :: rest) = perform n s >>= fun _ => interpret n rest := rfl

/-- Wherever the bound suffices without a prompt, the unit ends in one way at a prompt and without, with its utterances
written. -/
theorem interpret_writing (n : Nat) (statements : List Stmt) (m : Machine) (before : String)
    (h : (interpret n statements).halt? (m.writing false before) ≠ some .exhausted) :
    ∃ halt, ∃ t : Machine, halt ≠ some .outputFailed ∧ ∀ prompt text,
      (interpret n statements).halt? (m.writing prompt text) = halt ∧
        (interpret n statements).after (m.writing prompt text) =
          t.writing prompt (text ++ together prompt (m.utterances n statements)) := by
  induction statements generalizing m before with
  | nil => exact ⟨none, m, nofun, fun prompt text => ⟨rfl, by rw [utterances, together_nil, String.append_empty]; rfl⟩⟩
  | cons s rest ih =>
    unfold Halting.halt? Halting.after at *
    simp only [interpret_cons] at h ⊢
    cases e : exec n s m.silent with
    | ok c t =>
      rw [Halting.bind_of_ok (perform_of_ok e false before)] at h
      obtain ⟨halt, u, hhalt, hu⟩ := ih t _ h
      refine ⟨halt, u, hhalt, fun prompt text => ?_⟩
      rw [Halting.bind_of_ok (perform_of_ok e prompt text), utterances, e, together_cons, ← String.append_assoc]
      exact hu prompt _
    | error k t =>
      rw [Halting.bind_of_error (perform_of_error e (.inl rfl) before)] at h
      have hk : k ≠ .exhausted := fun hk => h (congrArg some hk)
      refine ⟨some k, t, fun hfailed => ((oblivious_exec n s).error e).1 (Option.some.inj hfailed), fun prompt text => ?_⟩
      rw [Halting.bind_of_error (perform_of_error e (.inr hk) text), utterances, e, together_cons, together_nil,
        String.append_empty]
      exact ⟨rfl, rfl⟩

/-- At a prompt a statement needs no greater bound than without, but for one step: the expression is not run as a
statement. -/
theorem perform_prompt (n : Nat) (s : Stmt) (m : Machine) (text : String) :
    (∃ u, perform n s (m.writing true text) = .error .exhausted u) ∨
    (∃ c, ∃ t : Machine, exec (n + 1) s m.silent = .ok c t ∧
      ∃ text', perform n s (m.writing true text) = .ok () (t.writing true text')) ∨
    ∃ k t, k ≠ .exhausted ∧ exec (n + 1) s m.silent = .error k t := by
  by_cases hplain : true = false ∨ ∀ e, s ≠ .expression e
  · have hnext : (exec n s).Extends (exec (n + 1) s) := steadfast_exec s n
    rw [perform_plain hplain]
    rcases hnext m.silent with ⟨u, he⟩ | he
    · exact .inl ⟨_, Halting.bind_of_error (((oblivious_exec n s).error he).2 true text)⟩
    · cases e : exec n s m.silent with
      | ok c t =>
        exact .inr (.inl ⟨c, t, he.trans e, _, Halting.bind_of_ok ((oblivious_exec n s).ok e true text)⟩)
      | error k t =>
        by_cases hk : k = .exhausted
        · subst hk
          exact .inl ⟨_, Halting.bind_of_error (((oblivious_exec n s).error e).2 true text)⟩
        · exact .inr (.inr ⟨k, t, hk, he.trans e⟩)
  · simp only [not_or, not_forall, not_not] at hplain
    obtain ⟨-, expr, rfl⟩ := hplain
    rw [perform_shown]
    cases e : eval n expr m.silent with
    | ok v t =>
      exact .inr (.inl ⟨.normal, t, Halting.bind_of_ok e, _,
        (Halting.bind_of_ok ((oblivious_eval n expr).ok e true text)).trans (print_behind v)⟩)
    | error k t =>
      by_cases hk : k = .exhausted
      · subst hk
        exact .inl ⟨_, Halting.bind_of_error (((oblivious_eval n expr).error e).2 true text)⟩
      · exact .inr (.inr ⟨k, t, hk, Halting.bind_of_error e⟩)

theorem interpret_prompt (n : Nat) (statements : List Stmt) (m : Machine) (text before : String)
    (h : (interpret n statements).halt? (m.writing true text) ≠ some .exhausted) :
    (interpret (n + 1) statements).halt? (m.writing false before) ≠ some .exhausted := by
  induction statements generalizing m text before with
  | nil => exact nofun
  | cons s rest ih =>
    unfold Halting.halt? at *
    rw [interpret_cons] at h ⊢
    rcases perform_prompt n s m text with ⟨u, hs⟩ | ⟨c, t, e, text', hs⟩ | ⟨k, t, hk, e⟩
    · exact absurd (by rw [Halting.bind_of_error hs]) h
    · rw [Halting.bind_of_ok hs] at h
      rw [Halting.bind_of_ok (perform_of_ok e false before)]
      exact ih t _ _ h
    · rw [Halting.bind_of_error (perform_of_error e (.inl rfl) before)]
      exact fun hexhausted => hk (Option.some.inj hexhausted)

/-- A unit that does not fail to write ends as it does without limits on its output. -/
theorem interpret_uncapped {statements : List Stmt} (h : (interpret n statements).halt? m ≠ some .outputFailed) :
    (interpret n statements).halt? m.uncapped = (interpret n statements).halt? m ∧
      (interpret n statements).after m.uncapped = ((interpret n statements).after m).uncapped := by
  have hlifts := lifts_interpret n statements m
  unfold Lifts at hlifts
  unfold Halting.halt? Halting.after at *
  cases e : interpret n statements m with
  | ok _ t =>
    rw [e] at hlifts
    rw [hlifts]
    exact ⟨rfl, rfl⟩
  | error k t =>
    rw [e] at hlifts h
    rw [(hlifts.resolve_left fun hk => h (congrArg some hk.1)).2]
    exact ⟨rfl, rfl⟩

/-- Statements and expressions run in one way, at a prompt and without. A unit whose output is not refused ends at a prompt
as it does without, in the same store and the same context. Without a prompt it writes what each of its statements writes,
up to the first that halts; at a prompt also, behind each of its own expression statements that has a value, that value as
a line. Where one of the two ends within some bound, so does the other. -/
theorem prompt_only_echoes (n : Nat) (statements : List Stmt) (m : Machine) (output output' : Sink) :
    let plain : Machine := { m with prompt := false, output := output }
    let prompted : Machine := { m with prompt := true, output := output' }
    let run := interpret n statements
    (∀ k, (∀ s, Oblivious (exec k s)) ∧ ∀ e, Oblivious (eval k e)) ∧
    (run.halt? plain ≠ some .outputFailed → run.halt? prompted ≠ some .outputFailed →
      (run.halt? plain ≠ some .exhausted →
        run.halt? prompted = run.halt? plain ∧
        (run.after prompted).store = (run.after plain).store ∧
        (run.after plain).context = plain.context ∧ (run.after prompted).context = prompted.context ∧
        (run.after plain).output.text = output.text ++ String.join ((m.utterances n statements).map fun u => u.1) ∧
        (run.after prompted).output.text =
          output'.text ++ String.join ((m.utterances n statements).map fun u => u.1 ++ u.2)) ∧
      (run.halt? prompted ≠ some .exhausted → (interpret (n + 1) statements).halt? plain ≠ some .exhausted)) := by
  intro plain prompted run
  refine ⟨fun k => ⟨oblivious_exec k, oblivious_eval k⟩, fun hplain hprompted => ⟨fun hbound => ?_, fun hbound => ?_⟩⟩
  · obtain ⟨hhalt, hafter⟩ := interpret_uncapped hplain
    obtain ⟨hhalt', hafter'⟩ := interpret_uncapped hprompted
    -- With no limit on the output the two runs differ in what they write and in nothing else.
    obtain ⟨halt, t, -, hruns⟩ := interpret_writing n statements m output.text (hhalt ▸ hbound)
    obtain ⟨hends, ht⟩ := hruns false output.text
    obtain ⟨hends', ht'⟩ := hruns true output'.text
    have hstate := hafter.symm.trans ht
    have hstate' := hafter'.symm.trans ht'
    refine ⟨?_, ?_, steady_interpret n statements plain, steady_interpret n statements prompted, ?_, ?_⟩
    · exact (hhalt'.symm.trans hends').trans (hends.symm.trans hhalt)
    · exact (congrArg Machine.store hstate').trans (congrArg Machine.store hstate).symm
    · exact congrArg (fun u : Machine => u.output.text) hstate
    · exact congrArg (fun u : Machine => u.output.text) hstate'
  · intro hexhausted
    have hfailed : (interpret (n + 1) statements).halt? plain ≠ some .outputFailed := by
      rw [hexhausted]
      nofun
    obtain ⟨hhalt, -⟩ := interpret_uncapped hfailed
    obtain ⟨hhalt', -⟩ := interpret_uncapped hprompted
    exact interpret_prompt n statements m output'.text output.text (hhalt' ▸ hbound) (hhalt.trans hexhausted)

/-- A variable, an assignment to it, the variable alone in a block and in a branch, the variable printed and the variable
alone: the prompt writes the value of the second statement and of the last. -/
theorem prompt_only_echoes_outermost :
    let x : Token := ⟨.identifier, "x", 1⟩
    let alone := Stmt.expression (.read 0 x)
    let statements := [.var x none, .expression (.assign 1 x (.literal (.string "b"))), .block [alone],
      .branch (.literal (.bool true)) alone none, .print (.read 2 x), alone]
    let m := Machine.start true .unlimited
    (interpret 9 statements).halt? m = none ∧
      ((interpret 9 statements).after { m with prompt := false }).output.text = "b\n" ∧
      ((interpret 9 statements).after m).output.text = "b\nb\nb\n" := by
  intro x alone statements m
  have hplain : (interpret 9 statements).halt? { m with prompt := false } = none := by decide +kernel
  have hprompted : (interpret 9 statements).halt? m = none := by decide +kernel
  have hutterances : m.utterances 9 statements =
    [("", ""), ("", "b\n"), ("", ""), ("", ""), ("b\n", ""), ("", "b\n")] := by decide +kernel
  obtain ⟨-, hruns⟩ := prompt_only_echoes 9 statements m .unlimited .unlimited
  obtain ⟨⟨-, -, -, -, htext, htext'⟩, -⟩ := hruns (ne_of_eq_of_ne hplain nofun) (ne_of_eq_of_ne hprompted nofun) |>.imp_left
    fun h => h (ne_of_eq_of_ne hplain nofun)
  rw [hutterances] at htext htext'
  exact ⟨hprompted, htext, htext'⟩

end LoxLang
