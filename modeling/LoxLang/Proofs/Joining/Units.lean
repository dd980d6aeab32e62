import LoxLang.Proofs.Joining.Names
import LoxLang.Proofs.Joining.Programs
import LoxLang.Proofs.Joining.Sources
import LoxLang.Proofs.Joining.Trees
import LoxLang.Proofs.Relabeling.Rejections

/-! Two units in one text, with a line break between them, do what they do one after the other. Just the lines of the
second are further down, and the node ids are others. -/

namespace LoxLang

open Labels

namespace Labels

/-- Code of two programs, each relabeled in a way of its own, beside code with node ids below a limit, which stays as
it is. -/
def rows (limit : NodeId) (ρ σ : Relabeling) (us vs : List Use) : Labels where
  allowed τ := τ = .still ∨ τ = ρ ∨ τ = σ
  ids τ i := τ = .still ∧ i < limit ∨ τ = ρ ∧ i ∈ us.map Use.id ∨ τ = σ ∧ i ∈ vs.map Use.id

variable {L : Labels} {limit : NodeId} {ρ σ : Relabeling} {us vs : List Use} {m m' : Machine}

/-- More code may be relabeled, if the distances of its nodes are the same too. -/
theorem Twins.widen (h : L.Twins m m') (more : Labels) (hallowed : ∀ ρ, L.allowed ρ → more.allowed ρ)
    (hids : ∀ ρ i, L.ids ρ i → more.ids ρ i) {known known' : Bindings} (hk : more.Keeps known known') :
    more.Twins { m with bindings := known } { m' with bindings := known' } := by
  have htwin : ∀ k k', L.Twin k k' → more.Twin k k' := by
    rintro k k' ⟨ρ, hρ, rfl⟩
    exact ⟨ρ, ⟨hallowed ρ hρ.allowed, fun u hu => hids ρ u.id (hρ.ids u hu)⟩, rfl⟩
  exact ⟨h.heap.mono htwin htwin, h.frames, h.globals, h.current, h.depth, h.prompt, h.output, hk⟩

theorem keeps_rows {known known' : Bindings} (hold : ∀ i < limit, known'[i]? = known[i]?)
    (hfirst : ∀ u ∈ us, known'[ρ.id u.id]? = known[u.id]?) (hsecond : ∀ u ∈ vs, known'[σ.id u.id]? = known[u.id]?) :
    (rows limit ρ σ us vs).Keeps known known' := by
  rintro τ - i (⟨rfl, hi⟩ | ⟨rfl, hi⟩ | ⟨rfl, hi⟩)
  · exact hold i hi
  · obtain ⟨u, hu, rfl⟩ := List.mem_map.mp hi
    exact hfirst u hu
  · obtain ⟨u, hu, rfl⟩ := List.mem_map.mp hi
    exact hsecond u hu

end Labels

theorem interpret_append (n : Nat) (a b : List Stmt) (m : Machine) :
    interpret n (a ++ b) m = (interpret n a >>= fun _ => interpret n b) m := by
  induction a generalizing m with
  | nil => rfl
  | cons s rest ih =>
    change (perform n s >>= fun _ => interpret n (rest ++ b)) m =
      ((perform n s >>= fun _ => interpret n rest) >>= fun _ => interpret n b) m
    cases e : perform n s m with
    | error k t => rw [Halting.bind_of_error e, Halting.bind_of_error (Halting.bind_of_error e)]
    | ok _ t =>
      rw [Halting.bind_of_ok e, ih]
      cases e' : interpret n rest t with
      | error k u => rw [Halting.bind_of_error e', Halting.bind_of_error ((Halting.bind_of_ok e).trans e')]
      | ok _ u => rw [Halting.bind_of_ok e', Halting.bind_of_ok ((Halting.bind_of_ok e).trans e')]

/-- A text that is read has no lexical faults. -/
theorem Parsed.lexical_of_ok {α : Type} {read : List Token → NodeId → Parsed α} {source : String} {nextId : NodeId} {a : α}
    (h : (ofSource read source nextId).result = .ok a) : lexicalDiagnostics source = [] := by
  cases hr : (read (tokens source) nextId).result with
  | error faults =>
    rw [ofSource_of_error hr] at h
    cases h
  | ok b =>
    rw [ofSource_of_ok hr] at h
    split at h
    · rename_i hempty
      exact List.isEmpty_iff.mp hempty
    · cases h

/-- With its tokens on other lines a text is read as the same program with the same lines. -/
theorem Parsed.program_lines (line : Nat → Nat) {source : String} {nextId : NodeId} {statements : List Stmt}
    (h : (ofSource (program false) source nextId).result = .ok statements) :
    (program false ((tokens source).map (Token.relabel ⟨fun i => i, line⟩)) nextId).result =
      .ok (Stmt.relabelEach ⟨fun i => i, line⟩ statements) := by
  obtain ⟨ts, stop, htokens, -, hstop⟩ := tokens_eq source
  have hend : ∃ t ∈ tokens source, t.isEof = true := ⟨stop, by simp [htokens], by simp [Token.isEof, hstop]⟩
  have hfollows := Grammar.follows_program (ρ := ⟨fun i => i, line⟩) (fun _ => rfl) false
  have hrun := run_relabel hend hfollows nextId
  have hread := (ofSource_eq _ source nextId).2 statements h
  unfold program at hread ⊢
  rw [hrun, Parsed.relabel, hread]

namespace Session

section Rows

variable {s t : Session} {first second whole : String} {a b : List Stmt} {known known' : Bindings} {n : Nat}
  {line : Nat → Nat}

/-- A text is read as two programs if its tokens are those of both, those of the second perhaps on other lines. -/
structure Joins (line : Nat → Nat) (first second whole : String) : Prop where
  tokens : ∃ ts stop, tokens first = ts ++ [stop] ∧ (∀ t ∈ ts, t.kind ≠ .eof) ∧ stop.kind = .eof ∧
    tokens whole = ts ++ (tokens second).map (Token.relabel ⟨fun i => i, line⟩)
  lexical : lexicalDiagnostics whole = (lexicalDiagnostics second).map (Diagnostic.relabel ⟨fun i => i, line⟩)

/-- The second session is the first behind a unit that has ended. -/
structure Behind (s t : Session) (first : String) (n : Nat) (a : List Stmt) (known : Bindings) : Prop where
  reachable : s.Reachable
  strict : s.machine.prompt = false
  accepted : s.accepted? first = some (a, known)
  ends : interpret n a (s.ready known) = .ok () t.machine
  nextId : t.nextId = (s.read first).nextId
  follows : t.Reachable

namespace Behind

variable (h : Behind s t first n a known)

include h

theorem context : t.machine.context = (s.ready known).context := by
  have hsteady := steady_interpret n a (s.ready known)
  rwa [Halting.after_of_ok h.ends] at hsteady

theorem bindings : t.machine.bindings = (s.ready known).bindings := congrArg Context.bindings h.context

theorem prompt : t.machine.prompt = false := (congrArg Context.prompt h.context).trans h.strict

/-- The uses of both units, in the order in which their node ids were handed out. -/
theorem made (hb : t.accepted? second = some (b, known')) : Stmt.MadeInEach s.nextId (t.read second).nextId (a ++ b) := by
  have hsecond := made_of_accepted hb
  rw [h.nextId] at hsecond
  have hle := nextId_le_read t second
  rw [h.nextId] at hle
  exact (made_of_accepted h.accepted).append hsecond (nextId_le_read s first) hle

/-- Both units in one text are accepted, with the distances that they have on their own. -/
theorem accepted_join (hb : t.accepted? second = some (b, known')) (hj : Joins line first second whole) :
    ∃ f both, s.accepted? whole = some (Stmt.relabelEach ⟨f, fun n => n⟩ a ++ Stmt.relabelEach ⟨f, line⟩ b, both) ∧
      (∀ u ∈ Stmt.usesEach a, both[f u.id]? = known[u.id]?) ∧ ∀ u ∈ Stmt.usesEach b, both[f u.id]? = known'[u.id]? := by
  obtain ⟨ts, stop, hfirst, hts, hstop, hwhole⟩ := hj.tokens
  obtain ⟨us, stop', hsecond, hus, hstop'⟩ := tokens_eq second
  obtain ⟨hreada, hresolvea⟩ := read_of_accepted h.accepted
  obtain ⟨hreadb, hresolveb⟩ := read_of_accepted hb
  unfold Session.read at hreada hreadb
  rw [h.strict] at hreada
  rw [h.prompt] at hreadb
  have hlexical : lexicalDiagnostics whole = [] := by rw [hj.lexical, Parsed.lexical_of_ok hreadb, List.map_nil]
  have ha := (Parsed.ofSource_eq _ first s.nextId).2 a hreada
  have hb' := Parsed.program_lines line hreadb
  rw [hfirst] at ha
  rw [hsecond, List.map_append, List.map_singleton] at hb'
  rw [hsecond, List.map_append, List.map_singleton] at hwhole
  have hus' : ∀ t ∈ us.map (Token.relabel ⟨fun i => i, line⟩), t.kind ≠ .eof := by simpa using hus
  have hmark : (stop'.relabel ⟨fun i => i, line⟩).kind = .eof := hstop'
  obtain ⟨body, hbody, hunnumbered⟩ := Parsed.program_append hts hstop hus' hmark ha hb' _
  rw [← hwhole] at hbody
  have hread : (s.read whole).result = .ok body := by
    unfold Session.read
    rw [h.strict, Parsed.ofSource_of_ok hbody, hlexical]
    rfl
  have hnodup := (h.made hb).uses.nodup
  rw [Stmt.usesEach_append] at hnodup
  have hnodup' := (Parsed.made_of_program.2 body hread).uses.nodup
  obtain ⟨f, rfl, hf⟩ := Stmt.exists_relabel line hunnumbered hnodup hnodup'
  have hglobals : ∀ x, x ∈ t.globals ↔ _ := h.reachable.globals_after h.accepted h.ends rfl
  obtain ⟨both, hboth, hknown⟩ := resolve_append hresolvea hresolveb (made_of_accepted h.accepted).tidy hglobals hnodup hf
  refine ⟨f, both, accepted_of_accept ?_, hknown⟩
  rw [accept_of_read hread, hboth]
  rfl

/-- The table of the whole text has what is known of old code, and of the code of the first unit while that runs. -/
theorem keeps_first {f : NodeId → NodeId} {body : List Stmt} {both : Bindings} (ha : s.accepted? whole = some (body, both))
    (hnew : ∀ u ∈ Stmt.usesEach a, s.nextId ≤ f u.id) (hfirst : ∀ u ∈ Stmt.usesEach a, both[f u.id]? = known[u.id]?)
    (line : Nat → Nat) : (rows s.nextId ⟨f, fun n => n⟩ ⟨f, line⟩ (Stmt.usesEach a) []).Keeps (s.ready known).bindings
      (s.ready both).bindings := by
  have hahead := h.reachable.sound.ahead
  refine keeps_rows (fun i hi => ?_) (fun u hu => ?_) nofun
  · rw [bindings_ready, bindings_ready, bindings_outside ha (.inl hi), bindings_outside h.accepted (.inl hi)]
  · have hu' := ((made_of_accepted h.accepted).uses.within u hu).1
    rw [bindings_ready, bindings_ready, hahead _ (hnew u hu), hahead _ hu', hfirst u hu]

/-- Behind the first unit it has what is known of the code of the second as well. -/
theorem keeps_second {f : NodeId → NodeId} {body : List Stmt} {both : Bindings} (ha : s.accepted? whole = some (body, both))
    (hb : t.accepted? second = some (b, known')) (hnew : ∀ u ∈ Stmt.usesEach a ++ Stmt.usesEach b, s.nextId ≤ f u.id)
    (hfirst : ∀ u ∈ Stmt.usesEach a, both[f u.id]? = known[u.id]?)
    (hsecond : ∀ u ∈ Stmt.usesEach b, both[f u.id]? = known'[u.id]?) (line : Nat → Nat) :
    (rows s.nextId ⟨f, fun n => n⟩ ⟨f, line⟩ (Stmt.usesEach a) (Stmt.usesEach b)).Keeps (t.ready known').bindings
      (s.ready both).bindings := by
  have hahead := h.reachable.sound.ahead
  have hle : s.nextId ≤ t.nextId := h.nextId ▸ nextId_le_read s first
  refine keeps_rows (fun i hi => ?_) (fun u hu => ?_) fun u hu => ?_
  · rw [bindings_ready, bindings_ready, h.bindings, bindings_ready, bindings_outside ha (.inl hi),
      bindings_outside hb (.inl (hi.trans_le hle)), bindings_outside h.accepted (.inl hi)]
    simp only [Option.none_or]
  · obtain ⟨hlo, hhi⟩ := (made_of_accepted h.accepted).uses.within u hu
    rw [← h.nextId] at hhi
    rw [bindings_ready, bindings_ready, h.bindings, bindings_ready, hahead _ (hnew u (List.mem_append_left _ hu)),
      hahead _ hlo, bindings_outside hb (.inl hhi), Option.none_or, hfirst u hu]
  · have hu' := ((made_of_accepted hb).uses.within u hu).1
    rw [bindings_ready, bindings_ready, hahead _ (hnew u (List.mem_append_right _ hu)), h.follows.sound.ahead _ hu',
      hsecond u hu]

omit h in
/-- The node ids of the code of both units are new in one text too. -/
theorem new_join {f : NodeId → NodeId} {both : Bindings} (haccepted : s.accepted? whole =
      some (Stmt.relabelEach ⟨f, fun n => n⟩ a ++ Stmt.relabelEach ⟨f, line⟩ b, both)) :
    ∀ u ∈ Stmt.usesEach a ++ Stmt.usesEach b, s.nextId ≤ f u.id := by
  have hwithin := (made_of_accepted haccepted).uses.within
  rw [Stmt.usesEach_append, Stmt.usesEach_relabel, Stmt.usesEach_relabel] at hwithin
  intro u hu
  rcases List.mem_append.mp hu with hu | hu
  · exact (hwithin _ (List.mem_append_left _ (List.mem_map_of_mem hu))).1
  · exact (hwithin _ (List.mem_append_right _ (List.mem_map_of_mem hu))).1

/-- Before either runs, the machine with the table of the first unit is a twin of that with the table of both. -/
theorem twins_ready {ρ σ : Relabeling} {both : Bindings}
    (hkeeps : (rows s.nextId ρ σ (Stmt.usesEach a) []).Keeps (s.ready known).bindings (s.ready both).bindings) :
    (rows s.nextId ρ σ (Stmt.usesEach a) []).Twins (s.ready known) (s.ready both) := by
  have hold : (s.chart false).Le ⟨(s.ready known).bindings, s.nextId, false⟩ := by
    refine ⟨fun i hi => ?_, le_rfl, rfl⟩
    rw [bindings_ready, bindings_outside h.accepted (.inl hi), Option.none_or]
    rfl
  have hsound : (s.ready known).Sound ⟨(s.ready known).bindings, s.nextId, false⟩ :=
    ⟨rfl, h.reachable.sound.machine.store.mono hold⟩
  exact twins_self (L := rows s.nextId ρ σ (Stmt.usesEach a) []) hsound (.inl rfl) (fun i hi => .inl ⟨rfl, hi⟩) hkeeps

/-- Both units in one text run as the second does behind the first. -/
theorem ends_join (hb : t.accepted? second = some (b, known')) (hj : Joins line first second whole) :
    ∃ body both, ∃ L : Labels, s.accepted? whole = some (body, both) ∧
      (∀ τ, L.allowed τ → τ.line = (fun n => n) ∨ τ.line = line) ∧
        L.Ends (interpret n b (t.ready known')) (interpret n body (s.ready both)) := by
  obtain ⟨f, both, haccepted, hfirst, hsecond⟩ := h.accepted_join hb hj
  have hnew := new_join haccepted
  have hkeeps := h.keeps_first haccepted (fun u hu => hnew u (List.mem_append_left _ hu)) hfirst line
  have hkeeps' := h.keeps_second haccepted hb hnew hfirst hsecond line
  have hrun := echoes_interpret n a (h.twins_ready hkeeps)
    ⟨.inr (.inl rfl), fun u hu => .inr (.inl ⟨rfl, List.mem_map_of_mem hu⟩)⟩
  unfold Echoes at hrun
  rw [h.ends] at hrun
  cases e : interpret n (Stmt.relabelEach ⟨f, fun n => n⟩ a) (s.ready both) with
  | error k m => simp [e, Ends] at hrun
  | ok _ m =>
    rw [e] at hrun
    have hbindings : m.bindings = (s.ready both).bindings := by
      have hsteady := steady_interpret n (Stmt.relabelEach ⟨f, fun n => n⟩ a) (s.ready both)
      rw [Halting.after_of_ok e] at hsteady
      exact congrArg Context.bindings hsteady
    rw [← hbindings] at hkeeps'
    -- What is paired stays paired; from here on the code of the second unit may be paired too.
    have hbetween := hrun.2.widen (rows s.nextId ⟨f, fun n => n⟩ ⟨f, line⟩ (Stmt.usesEach a) (Stmt.usesEach b))
      (fun _ hτ => hτ)
      (fun τ i hi => hi.imp_right fun hi => hi.imp_right fun hi => absurd hi.2 List.not_mem_nil) hkeeps'
    have hrest := echoes_interpret n b hbetween
      ⟨.inr (.inr rfl), fun u hu => .inr (.inr ⟨rfl, List.mem_map_of_mem hu⟩)⟩
    refine ⟨_, both, rows s.nextId ⟨f, fun n => n⟩ ⟨f, line⟩ (Stmt.usesEach a) (Stmt.usesEach b), haccepted, ?_, ?_⟩
    · rintro τ (rfl | rfl | rfl)
      · exact .inl rfl
      · exact .inl rfl
      · exact .inr rfl
    · rw [interpret_append, Halting.bind_of_ok e]
      exact hrest

end Behind

end Rows

end Session

end LoxLang
