import LoxLang.Proofs.Context
import LoxLang.Proofs.Heap
import LoxLang.Proofs.Scoping.Frames

/-! The scoping invariant: every function and every method of the store stands in a frame whose layout its code fits.
What each store operation keeps of it. -/

namespace LoxLang

/-- A function stands in frames of a layout that its code fits, once the given scopes are around it. -/
def Closure.Placed (c : Chart) (fs : Frames) (globals : FrameId) (around : Layout) (k : Closure FrameId) : Prop :=
  ∃ l, Linked fs globals k.home l ∧ k.declared.Fits c (around ++ l)

/-- The scope of the instance around the body of a method. -/
def Layout.ofInstance : Layout := [["this"]]

structure Store.Sound (c : Chart) (globals : FrameId) (s : Store) : Prop where
  root : s.frames.outer? globals = none
  within : globals < s.frames.size
  closed : s.frames.Closed
  closures : ∀ k ∈ s.closures, k.Placed c s.frames globals []
  methods : ∀ d ∈ s.classes, ∀ (x : String) (k : Closure FrameId), d.methods[x]? = some k →
    k.Placed c s.frames globals .ofInstance

structure Machine.Sound (c : Chart) (m : Machine) : Prop where
  bindings : c.bindings = m.bindings
  store : m.store.Sound c m.globals

/-- The program stands in the frames of a layout, and the current frame has just the names of the innermost
scope. -/
structure Machine.At (m : Machine) (l : Layout) : Prop where
  linked : Linked m.store.frames m.globals m.current l
  exact : ∀ scope ∈ l.head?, ∀ x, m.store.frames.Has m.current x → x ∈ scope

/-- A machine that a run leads to from a sound one, with the names that the run adds to the current frame. -/
structure Machine.Follows (c : Chart) (m m' : Machine) (names : List String) : Prop where
  sound : m'.Sound c
  grows : Frames.Grows m.store.frames m'.store.frames m.current names
  context : m'.context = m.context

open Frames

variable {c : Chart}

theorem Closure.Placed.grows {fs fs' : Frames} {globals g : FrameId} {around : Layout} {names : List String}
    {k : Closure FrameId} (h : k.Placed c fs globals around) (hs : Grows fs fs' g names) : k.Placed c fs' globals around := by
  obtain ⟨l, hl, hk⟩ := h
  exact ⟨l, hl.grows hs, hk⟩

namespace Store

variable {globals g : FrameId} {s : Store}

namespace Sound

/-- Other frames that have grown from those there were. -/
theorem frames (h : s.Sound c globals) {fs : Frames} {names : List String} (hs : Grows s.frames fs g names)
    (hc : fs.Closed) :
    Sound c globals { s with frames := fs } where
  root := (hs.outer _ h.within).trans h.root
  within := h.within.trans_le hs.size
  closed := hc
  closures k hk := (h.closures k hk).grows hs
  methods d hd x k hk := (h.methods d hd x k hk).grows hs

theorem addFrame (h : s.Sound c globals) {outer : FrameId} (ho : outer < s.frames.size) (names : Names) :
    Sound c globals (s.addFrame (some outer) names).2 :=
  h.frames (grows_add s.frames (some outer) names globals) (h.closed.add ho names)

theorem addClosure (h : s.Sound c globals) {k : Closure FrameId} (hk : k.Placed c s.frames globals []) :
    Sound c globals (s.inHeap fun h => h.addClosure k).2 :=
  { h with closures := fun k' hk' => (Array.mem_push.mp hk').elim (h.closures k') fun e => e ▸ hk }

theorem addClass (h : s.Sound c globals) {d : ClassDef FrameId}
    (hd : ∀ (x : String) (k : Closure FrameId), d.methods[x]? = some k → k.Placed c s.frames globals .ofInstance) :
    Sound c globals (s.inHeap fun h => h.addClass d).2 :=
  { h with methods := fun d' hd' => (Array.mem_push.mp hd').elim (h.methods d') fun e => e ▸ hd }

theorem addObject (h : s.Sound c globals) (k : ClassId) : Sound c globals (s.inHeap fun h => h.addObject k).2 :=
  ⟨h.root, h.within, h.closed, h.closures, h.methods⟩

theorem setField (h : s.Sound c globals) (o : ObjectId) (x : String) (v : Value) :
    Sound c globals (s.inHeap fun h => ((), h.setField o x v)).2 := ⟨h.root, h.within, h.closed, h.closures, h.methods⟩

end Sound

/-- Bound to an instance, a method stands in the frame of the instance. -/
theorem placed_bind {k : Closure FrameId} (hk : k.Placed c s.frames globals .ofInstance)
    (o : ObjectId) : (s.bind k o).1.Placed c (s.bind k o).2.frames globals [] := by
  obtain ⟨l, hl, hfits⟩ := hk
  have hgrows := grows_add s.frames (some k.home) ((∅ : Names).insert "this" (.object o)) k.home
  refine ⟨["this"] :: l, .inner ?_ ?_ (hl.grows hgrows), hfits⟩
  · exact (outer?_add ..).trans (if_pos rfl)
  · exact List.forall_mem_singleton.mpr ((has_add_self ..).mpr Std.ExtTreeMap.mem_insert_self)

theorem grows_bind (s : Store) (k : Closure FrameId) (o : ObjectId) (f : FrameId) :
    Grows s.frames (s.bind k o).2.frames f [] := grows_add ..

theorem Sound.bind (h : s.Sound c globals) {around : Layout} {k : Closure FrameId} (hk : k.Placed c s.frames globals around)
    (o : ObjectId) : Sound c globals (s.bind k o).2 := by
  obtain ⟨l, hl, -⟩ := hk
  exact h.addFrame (hl.lt h.within) _

end Store

theorem Names.mem_single (x y : String) (v : Value) : y ∈ (∅ : Names).insert x v ↔ y ∈ [x] := by
  rw [Std.ExtTreeMap.mem_insert, Std.LawfulEqCmp.compare_eq_iff_eq, or_iff_left Std.ExtTreeMap.not_mem_empty,
    List.mem_singleton, eq_comm]

/-- Where parameters share a name the last of them counts. -/
theorem Run.getElem?_parameterNames (parameters : List Token) (arguments : List Value) (x : String) :
    (parameterNames parameters arguments)[x]? =
      ((parameters.zip arguments).reverse.find? fun p => p.1.lexeme == x).map Prod.snd := by
  unfold parameterNames
  induction parameters.zip arguments using List.reverseRecOn with
  | nil => exact Std.ExtTreeMap.getElem?_empty
  | append_singleton pairs p ih =>
    rw [List.foldl_append, List.foldl_cons, List.foldl_nil, Std.ExtTreeMap.getElem?_insert, List.reverse_append,
      List.reverse_singleton, List.singleton_append, List.find?_cons, ih]
    by_cases hx : p.1.lexeme = x
    · simp [hx]
    · simp [hx, beq_eq_false_iff_ne.mpr hx]

/-- Where they do not, each has the argument at its place. -/
theorem Run.getElem?_parameterNames_iff {parameters : List Token} {arguments : List Value} {x : String} {v : Value}
    (hn : (parameters.map Token.lexeme).Nodup) (h : arguments.length = parameters.length) :
    (parameterNames parameters arguments)[x]? = some v ↔
      ∃ i : Nat, parameters[i]?.map Token.lexeme = some x ∧ arguments[i]? = some v := by
  have hkeys : ((parameters.zip arguments).map fun p => p.1.lexeme).Nodup := by
    have hparameters := List.map_fst_zip h.ge
    rw [← hparameters, List.map_map] at hn
    exact hn
  rw [getElem?_parameterNames]
  constructor
  · intro hfound
    obtain ⟨p, hp, rfl⟩ := Option.map_eq_some_iff.mp hfound
    obtain ⟨i, hi⟩ := List.mem_iff_getElem?.mp (List.mem_reverse.mp (List.mem_of_find?_eq_some hp))
    obtain ⟨hparameter, hargument⟩ := List.getElem?_zip_eq_some.mp hi
    exact ⟨i, Option.map_eq_some_iff.mpr ⟨p.1, hparameter, by simpa using List.find?_some hp⟩, hargument⟩
  · rintro ⟨i, hparameter, hargument⟩
    obtain ⟨t, ht, rfl⟩ := Option.map_eq_some_iff.mp hparameter
    have hmem : (t, v) ∈ parameters.zip arguments :=
      List.mem_of_getElem? (List.getElem?_zip_eq_some.mpr ⟨ht, hargument⟩)
    have hsome : ((parameters.zip arguments).reverse.find? fun p => p.1.lexeme == t.lexeme).isSome :=
      List.find?_isSome.mpr ⟨(t, v), List.mem_reverse.mpr hmem, beq_self_eq_true _⟩
    obtain ⟨p, hp⟩ := Option.isSome_iff_exists.mp hsome
    have hpmem := List.mem_reverse.mp (List.mem_of_find?_eq_some hp)
    obtain rfl : p = (t, v) := List.inj_on_of_nodup_map hkeys hpmem hmem (by simpa using List.find?_some hp)
    rw [hp]
    rfl

/-- A call gives a value to each parameter. -/
theorem Run.mem_parameterNames {parameters : List Token} {arguments : List Value}
    (h : arguments.length = parameters.length) (x : String) :
    x ∈ parameterNames parameters arguments ↔ x ∈ parameters.map Token.lexeme := by
  suffices hfold : ∀ names : Names, x ∈ (parameters.zip arguments).foldl
      (fun (names : Names) p => names.insert p.1.lexeme p.2) names ↔ x ∈ parameters.map Token.lexeme ∨ x ∈ names by
    exact (hfold ∅).trans (or_iff_left Std.ExtTreeMap.not_mem_empty)
  induction parameters generalizing arguments with
  | nil => simp
  | cons t rest ih =>
    cases arguments with
    | nil => cases h
    | cons v values =>
      intro names
      rw [List.zip_cons_cons, List.foldl_cons, ih (Nat.succ.inj h)]
      simp only [List.map_cons, List.mem_cons, Std.ExtTreeMap.mem_insert, Std.LawfulEqCmp.compare_eq_iff_eq]
      rw [or_assoc, or_left_comm, eq_comm (a := t.lexeme)]

namespace Machine

variable {m m' m'' : Machine} {l : Layout} {names more : List String}

namespace Follows

theorem refl (h : m.Sound c) : Follows c m m [] := ⟨h, .refl _ _, rfl⟩

theorem current (h : Follows c m m' names) : m'.current = m.current := congrArg Context.current h.context

theorem globals (h : Follows c m m' names) : m'.globals = m.globals := congrArg Context.globals h.context

theorem trans (h : Follows c m m' names) (h' : Follows c m' m'' more) : Follows c m m'' (more ++ names) :=
  ⟨h'.sound, h.grows.trans (h.current ▸ h'.grows), h'.context.trans h.context⟩

/-- The program stands in the same layout with the added names in its innermost scope. -/
theorem at_declare (h : Follows c m m' names) (hs : m.Sound c) (ha : m.At l) : m'.At (l.declare names) := by
  have hlt := ha.linked.lt hs.store.within
  have hhas := h.grows.has _ hlt
  constructor
  · rw [h.current, h.globals]
    exact (ha.linked.grows h.grows).declare fun x hx => (hhas x).mpr (.inr ⟨rfl, hx⟩)
  · rw [h.current]
    intro scope hscope x hx
    cases l with
    | nil => cases hscope
    | cons scope' outer =>
      cases hscope
      rcases (hhas x).mp hx with hx | ⟨-, hx⟩
      · exact List.mem_append_right _ (ha.exact _ rfl x hx)
      · exact List.mem_append_left _ hx

theorem at_same (h : Follows c m m' []) (hs : m.Sound c) (ha : m.At l) : m'.At l := by
  simpa using h.at_declare hs ha

theorem congr (h : Follows c m m' names) (hs : ∀ x, x ∈ names ↔ x ∈ more) : Follows c m m' more :=
  ⟨h.sound, ⟨h.grows.size, h.grows.outer, fun g hg x => by rw [h.grows.has g hg x, hs x]⟩, h.context⟩

end Follows

theorem At.congr {scope scope' : List String} (h : m.At (scope :: l)) (hs : ∀ x, x ∈ scope ↔ x ∈ scope') :
    m.At (scope' :: l) where
  linked := h.linked.congr hs
  exact _ hscope x hx := by
    cases hscope
    exact (hs x).mp (h.exact scope rfl x hx)

theorem Sound.deeper (h : m.Sound c) (depth : Nat) : Sound c { m with depth := depth } := ⟨h.bindings, h.store⟩

theorem Sound.enter (h : m.Sound c) {outer : FrameId} (hl : Linked m.store.frames m.globals outer l) (names : Names) :
    (m.enter outer names).Sound c :=
  ⟨h.bindings, h.store.addFrame (hl.lt h.store.within) _⟩

/-- A new frame is that of a new scope with the same names. -/
theorem at_enter {outer : FrameId} {names : Names} {scope : List String}
    (hl : Linked m.store.frames m.globals outer l) (hnames : ∀ x, x ∈ names ↔ x ∈ scope) :
    (m.enter outer names).At (scope :: l) where
  linked := by
    refine .inner ((outer?_add ..).trans (if_pos rfl)) (fun x hx => ?_) (hl.grows (grows_add _ _ _ outer))
    exact (has_add_self ..).mpr ((hnames x).mpr hx)
  exact _ hs x hx := by
    cases hs
    exact (hnames x).mp ((has_add_self ..).mp hx)

/-- What a run in the new frame leads to follows, back in the frame before. -/
theorem Follows.leave {outer : FrameId} {table : Names} (h : (m.enter outer table).Follows c m' names) :
    m.Follows c { m' with current := m.current } [] where
  sound := ⟨h.sound.bindings, h.sound.store⟩
  grows := by
    have hadd := grows_add m.store.frames (some outer) table (m.enter outer table).current
    exact (hadd.trans h.grows).inside (Nat.le_refl _) m.current
  context := by
    have hcontext := h.context
    simp only [Machine.context, Context.mk.injEq] at hcontext ⊢
    exact ⟨hcontext.1, trivial, hcontext.2.2⟩

/-- A step that changes the store. -/
theorem follows_store (h : m.Sound c) {s : Store} (hs : s.Sound c m.globals)
    (hgrows : Grows m.store.frames s.frames m.current names) : Follows c m { m with store := s } names :=
  ⟨⟨h.bindings, hs⟩, hgrows, rfl⟩

end Machine

end LoxLang
