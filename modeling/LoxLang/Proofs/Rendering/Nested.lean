import LoxLang.Tree.Render
import Mathlib.Tactic

/-! Words, and lists in parentheses that begin with a word. Written with single blanks, they are read in one way only: a
list shows its own end, and a word ends where a blank or a parenthesis follows. -/

namespace LoxLang

inductive Nested
  | word (text : String)
  | list (head : String) (parts : List Nested)

/-- The characters that are in no word. -/
def delimiters : List Char := [' ', '(', ')']

structure Word (text : List Char) : Prop where
  ne_nil : text ≠ []
  undivided : ∀ c ∈ text, c ∉ delimiters

/-- What may follow a word. -/
def Delimited (behind : List Char) : Prop := ∀ c ∈ behind.head?, c ∈ delimiters

/-- A word ends at the first delimiter. -/
theorem undivided_append_injective : ∀ {a b r s : List Char}, (∀ c ∈ a, c ∉ delimiters) → (∀ c ∈ b, c ∉ delimiters) →
    Delimited r → Delimited s → a ++ r = b ++ s → a = b ∧ r = s
  | [], [], _, _, _, _, _, _, h => ⟨rfl, h⟩
  | [], c :: _, _, _, _, hb, hr, _, h => by
    obtain rfl : _ = c :: _ := h
    exact absurd (hr c rfl) (hb c List.mem_cons_self)
  | c :: _, [], _, _, ha, _, _, hs, h => by
    obtain rfl : c :: _ = _ := h
    exact absurd (hs c rfl) (ha c List.mem_cons_self)
  | c :: a, d :: b, r, s, ha, hb, hr, hs, h => by
    rw [List.cons_append, List.cons_append, List.cons.injEq] at h
    obtain ⟨rfl, h⟩ := h
    obtain ⟨rfl, rfl⟩ := undivided_append_injective (fun e he => ha e (List.mem_cons_of_mem _ he))
      (fun e he => hb e (List.mem_cons_of_mem _ he)) hr hs h
    exact ⟨rfl, rfl⟩

namespace Nested

mutual

def chars : Nested → List Char
  | word text => text.toList
  | list head parts => '(' :: (head.toList ++ charsBehind parts)

/-- What stands behind the head of a list. -/
def charsBehind : List Nested → List Char
  | [] => [')']
  | part :: rest => ' ' :: (part.chars ++ charsBehind rest)

end

mutual

def Solid : Nested → Prop
  | word text => Word text.toList
  | list head parts => Word head.toList ∧ SolidEach parts

def SolidEach : List Nested → Prop
  | [] => True
  | part :: rest => part.Solid ∧ SolidEach rest

end

theorem delimited_charsBehind (parts : List Nested) (r : List Char) : Delimited (charsBehind parts ++ r) := by
  cases parts <;> simp [charsBehind, Delimited, delimiters]

theorem word_chars_ne {text : String} {c : Char} {rest r : List Char} (h : Word text.toList) (hc : c ∈ delimiters) :
    text.toList ++ r ≠ c :: rest := by
  obtain ⟨hne, hundivided⟩ := h
  cases htext : text.toList with
  | nil => exact absurd htext hne
  | cons d more =>
    intro heq
    obtain ⟨rfl, -⟩ := List.cons.inj heq
    exact hundivided d (htext ▸ List.mem_cons_self) hc

mutual

/-- The text in front of a delimiter, and what follows, can be told from both together. -/
theorem chars_append_injective : ∀ {a b : Nested} {r s : List Char}, a.Solid → b.Solid → Delimited r → Delimited s →
    a.chars ++ r = b.chars ++ s → a = b ∧ r = s
  | word x, word y, r, s, ha, hb, hr, hs, h => by
    obtain ⟨hxy, hrs⟩ := undivided_append_injective ha.undivided hb.undivided hr hs h
    exact ⟨congrArg word (String.toList_inj.mp hxy), hrs⟩
  | word _, list _ _, _, _, ha, _, _, _, h => absurd h (word_chars_ne ha (by simp [delimiters]))
  | list _ _, word _, _, _, _, hb, _, _, h => absurd h.symm (word_chars_ne hb (by simp [delimiters]))
  | list x ps, list y qs, r, s, ha, hb, _, _, h => by
    simp only [chars, List.cons_append, List.append_assoc, List.cons.injEq, true_and] at h
    obtain ⟨hxy, hbehind⟩ := undivided_append_injective ha.1.undivided hb.1.undivided (delimited_charsBehind ps r)
      (delimited_charsBehind qs s) h
    obtain ⟨rfl, hrs⟩ := charsBehind_append_injective ha.2 hb.2 hbehind
    exact ⟨congrArg (list · ps) (String.toList_inj.mp hxy), hrs⟩

theorem charsBehind_append_injective : ∀ {ps qs : List Nested} {r s : List Char}, SolidEach ps → SolidEach qs →
    charsBehind ps ++ r = charsBehind qs ++ s → ps = qs ∧ r = s
  | [], [], _, _, _, _, h => ⟨rfl, (List.cons.inj h).2⟩
  | [], _ :: _, _, _, _, _, h => absurd (List.cons.inj h).1 (by decide)
  | _ :: _, [], _, _, _, _, h => absurd (List.cons.inj h).1 (by decide)
  | p :: ps, q :: qs, r, s, hps, hqs, h => by
    simp only [charsBehind, List.cons_append, List.append_assoc, List.cons.injEq, true_and] at h
    obtain ⟨rfl, hbehind⟩ := chars_append_injective hps.1 hqs.1 (delimited_charsBehind ps r) (delimited_charsBehind qs s) h
    obtain ⟨rfl, hrs⟩ := charsBehind_append_injective hps.2 hqs.2 hbehind
    exact ⟨rfl, hrs⟩

end

theorem chars_injective {a b : Nested} (ha : a.Solid) (hb : b.Solid) (h : a.chars = b.chars) : a = b :=
  (chars_append_injective (r := []) (s := []) ha hb nofun nofun (congrArg (· ++ []) h)).1

end Nested

section Texts

theorem toList_intercalate_blank (head : String) : ∀ texts : List String,
    (String.intercalate " " (head :: texts)).toList = head.toList ++ texts.flatMap fun text => ' ' :: text.toList
  | [] => by rw [String.intercalate_singleton, List.flatMap_nil, List.append_nil]
  | text :: rest => by
    rw [String.intercalate_cons_cons, String.toList_append, String.toList_append, toList_intercalate_blank text rest,
      List.flatMap_cons, List.append_assoc]
    rfl

theorem Nested.charsBehind_eq : ∀ parts : List Nested,
    charsBehind parts = (parts.flatMap fun part => ' ' :: part.chars) ++ [')']
  | [] => rfl
  | part :: rest => by rw [charsBehind, charsBehind_eq rest, List.flatMap_cons, List.append_assoc, List.cons_append]

/-- What a list in parentheses looks like. -/
theorem toList_parenthesized (head : String) {texts : List String} {parts : List Nested}
    (h : texts.map String.toList = parts.map Nested.chars) :
    (parenthesized (head :: texts)).toList = (Nested.list head parts).chars := by
  have htexts : (texts.flatMap fun text => ' ' :: text.toList) = parts.flatMap fun part => ' ' :: part.chars := by
    rw [List.flatMap_def, List.flatMap_def, ← Function.comp_def (List.cons ' '), ← List.map_map, h, List.map_map]
    rfl
  rw [parenthesized, String.toList_append, String.toList_append, toList_intercalate_blank, htexts, Nested.chars,
    Nested.charsBehind_eq, List.append_assoc, List.append_assoc]
  simp

end Texts

end LoxLang
