import LoxLang.Proofs.Grammar.Sources
import LoxLang.Proofs.Joining.Pieces
import LoxLang.Proofs.Relabeling.Trees

/-! The tokens and faults of two texts with a line break between them: those of the first and those of the second, on
lines further down. -/

namespace LoxLang

/-- Lines moved down, node ids as they are. -/
def Relabeling.lower (k : Nat) : Relabeling := ⟨fun i => i, (· + k)⟩

namespace Item

def relabel (ρ : Relabeling) : Item → Item
  | token t => .token (t.relabel ρ)
  | fault cause line => .fault cause (ρ.line line)

variable (ρ : Relabeling) (items : List Item)

theorem tokens_relabel :
    (items.map (relabel ρ)).filterMap token? = (items.filterMap token?).map (Token.relabel ρ) := by
  rw [List.filterMap_map, List.map_filterMap]
  refine List.filterMap_congr fun item _ => ?_
  cases item <;> rfl

/-- The faults among items, as diagnostics. -/
def diagnostics : List Diagnostic := (items.filterMap fault?).map fun (cause, line) => .lexical line cause

theorem diagnostics_append (more : List Item) : diagnostics (items ++ more) = diagnostics items ++ diagnostics more := by
  rw [diagnostics, List.filterMap_append, List.map_append]
  rfl

theorem diagnostics_relabel :
    diagnostics (items.map (relabel ρ)) = (diagnostics items).map (Diagnostic.relabel ρ) := by
  induction items with
  | nil => rfl
  | cons item rest ih =>
    cases item with
    | token => exact ih
    | fault => exact congrArg (List.cons _) ih

theorem ofPieces_lower (k : Nat) : ∀ (ps : List Piece) (line : Nat),
    ofPieces (line + k) ps = (ofPieces line ps).map (relabel (.lower k))
  | [], _ => rfl
  | p :: rest, line => by
    have hrest := ofPieces_lower k rest (line + p.text.count '\n')
    rw [Nat.add_right_comm] at hrest
    rw [ofPieces, ofPieces, hrest, Nat.add_right_comm]
    cases p.shape <;> rfl

/-- Behind pieces that break lines everything stands as many lines further down. -/
theorem ofPieces_append : ∀ (ps : List Piece) (line : Nat), ∃ front, ∀ qs,
    ofPieces line (ps ++ qs) = front ++ ofPieces (line + (ps.map (·.text)).flatten.count '\n') qs
  | [], line => ⟨[], fun qs => rfl⟩
  | p :: rest, line => by
    obtain ⟨front, hfront⟩ := ofPieces_append rest (line + p.text.count '\n')
    have hline : line + ((p :: rest).map (·.text)).flatten.count '\n' =
        line + p.text.count '\n' + (rest.map (·.text)).flatten.count '\n' := by
      rw [List.map_cons, List.flatten_cons, List.count_append, Nat.add_assoc]
    rw [hline]
    simp only [List.cons_append, ofPieces, hfront]
    cases p.shape with
    | token kind => exact ⟨.token ⟨kind, String.ofList p.text, line + p.text.count '\n'⟩ :: front, fun _ => rfl⟩
    | fault cause => exact ⟨.fault cause (line + p.text.count '\n') :: front, fun _ => rfl⟩
    | blank | comment => exact ⟨front, fun _ => rfl⟩

/-- Every fault is reported. -/
theorem exists_fault {ps : List Piece} {p : Piece} {cause : LexicalFault} (hp : p ∈ ps) (h : p.shape = .fault cause)
    (line : Nat) : diagnostics (ofPieces line ps) ≠ [] := by
  induction ps generalizing line with
  | nil => cases hp
  | cons q rest ih =>
    rw [ofPieces]
    rcases List.mem_cons.mp hp with rfl | hp
    · rw [h]
      exact List.cons_ne_nil _ _
    · have hrest := ih hp (line + q.text.count '\n')
      cases q.shape with
      | fault => exact List.cons_ne_nil _ _
      | token | blank | comment => exact hrest

end Item

theorem lexicalDiagnostics_eq (source : String) : lexicalDiagnostics source = Item.diagnostics (items source) := rfl

/-- Lines without text. -/
def newlines (k : Nat) : String := String.ofList (List.replicate k '\n')

theorem items_newlines (k : Nat) (source : String) :
    items (newlines k ++ source) = (items source).map (Item.relabel (.lower k)) := by
  have hpieces : ∀ (k line : Nat), Item.ofPieces line (pieces (List.replicate k '\n' ++ source.toList)) =
      Item.ofPieces (line + k) (pieces source.toList) := by
    intro k
    induction k with
    | zero => exact fun _ => rfl
    | succ k ih =>
      intro line
      rw [List.replicate_succ, List.cons_append, pieces_line, Item.ofPieces]
      exact (ih (line + 1)).trans (by rw [Nat.add_assoc, Nat.add_comm 1 k])
  unfold items newlines
  rw [String.toList_append, String.toList_ofList, hpieces, Item.ofPieces_lower]

/-- How many lines a text is that has another one on the line behind it. -/
def lineCount (source : String) : Nat := source.toList.count '\n' + 1

section Join

variable {first : String} (second : String)

theorem items_join (h : lexicalDiagnostics first = []) :
    ∃ front stop, items first = front ++ [.token stop] ∧ stop.kind = .eof ∧
      items (first ++ "\n" ++ second) = front ++ (items second).map (Item.relabel (.lower (lineCount first))) := by
  obtain ⟨front, hfront⟩ := Item.ofPieces_append (pieces first.toList) 1
  rw [flatten_pieces] at hfront
  have hends : ∀ p ∈ pieces first.toList, p.shape ≠ .fault .unterminatedString := fun p hp hshape =>
    Item.exists_fault hp hshape 1 h
  refine ⟨front, ⟨.eof, "", 1 + first.toList.count '\n'⟩, ?_, rfl, ?_⟩
  · have hfirst := hfront []
    rwa [List.append_nil] at hfirst
  · have htext : (first ++ "\n" ++ second).toList = first.toList ++ '\n' :: second.toList := by simp
    unfold items
    rw [htext, pieces_append _ _ hends, hfront, Item.ofPieces, ← Item.ofPieces_lower]
    exact congrArg (fun line => front ++ Item.ofPieces line _) (Nat.add_assoc 1 _ 1)

theorem tokens_join (h : lexicalDiagnostics first = []) :
    ∃ ts stop, tokens first = ts ++ [stop] ∧ (∀ t ∈ ts, t.kind ≠ .eof) ∧ stop.kind = .eof ∧
      tokens (first ++ "\n" ++ second) = ts ++ (tokens second).map (Token.relabel (.lower (lineCount first))) := by
  obtain ⟨front, stop, hfirst, hstop, hwhole⟩ := items_join second h
  have htokens : tokens first = front.filterMap Item.token? ++ [stop] := by
    rw [tokens, hfirst, List.filterMap_append]
    rfl
  refine ⟨_, stop, htokens, ?_, hstop, ?_⟩
  · obtain ⟨ts, end', heq, hts, -⟩ := tokens_eq first
    rw [(List.append_inj' (htokens.symm.trans heq) rfl).1]
    exact hts
  · rw [tokens, hwhole, List.filterMap_append, Item.tokens_relabel]
    rfl

theorem lexicalDiagnostics_join (h : lexicalDiagnostics first = []) : lexicalDiagnostics (first ++ "\n" ++ second) =
    (lexicalDiagnostics second).map (Diagnostic.relabel (.lower (lineCount first))) := by
  obtain ⟨front, stop, hfirst, -, hwhole⟩ := items_join second h
  rw [lexicalDiagnostics_eq, hfirst, Item.diagnostics_append] at h
  rw [lexicalDiagnostics_eq, hwhole, Item.diagnostics_append, (List.append_eq_nil_iff.mp h).1, Item.diagnostics_relabel]
  rfl

end Join

section Newlines

variable (k : Nat) (source : String)

theorem tokens_newlines : tokens (newlines k ++ source) = (tokens source).map (Token.relabel (.lower k)) := by
  rw [tokens, items_newlines, Item.tokens_relabel]
  rfl

theorem lexicalDiagnostics_newlines :
    lexicalDiagnostics (newlines k ++ source) = (lexicalDiagnostics source).map (Diagnostic.relabel (.lower k)) := by
  rw [lexicalDiagnostics_eq, items_newlines, Item.diagnostics_relabel]
  rfl

end Newlines

end LoxLang
