import Mathlib.Logic.Basic
import OnePage.Proofs.Phrase
import OnePage.Token.Scan

/-!
# How tokens are spelled

The lexeme of a token from a scan is one of those that its kind allows: a digit is one decimal
digit, a type is one of three words, a character between quotes is a letter or a space.
-/

namespace OnePage

/-- A decimal digit. -/
def isDecimal (c : Char) : Bool := '0' ≤ c && c ≤ '9'

/-- A character that may stand between quotes. -/
def isTextChar (c : Char) : Bool := Scan.isLetter c || c = ' '

/-- The lexeme may stand for its kind. -/
def Token.Spelled (t : Token) : Prop :=
  match t.kind with
  | .digit => ∃ c, t.lexeme = String.ofList [c] ∧ isDecimal c
  | .char => ∃ c, t.lexeme = String.ofList [c] ∧ isTextChar c
  | .typeWord => t.lexeme = "int" ∨ t.lexeme = "string" ∨ t.lexeme = "boolean"
  | .boolVal => t.lexeme = "true" ∨ t.lexeme = "false"
  | .boolOp => t.lexeme = "==" ∨ t.lexeme = "!="
  | _ => True

namespace Reserved

/-- A word of which nothing is left is among the candidates. -/
theorem mem_of_finished {candidates : List (List Char × Kind)} {kind : Kind}
    (h : finished? candidates = some kind) : ([], kind) ∈ candidates := by
  obtain ⟨⟨letters, k⟩, hfind, rfl⟩ := Option.map_eq_some_iff.mp h
  have hempty : letters = [] := by simpa using List.find?_some hfind
  subst hempty
  exact List.mem_of_find?_eq_some hfind

/-- A word that goes on after a letter is a candidate that starts with it. -/
theorem mem_of_after {candidates : List (List Char × Kind)} {c : Char} {letters : List Char}
    {kind : Kind} (h : (letters, kind) ∈ candidates.filterMap (after c)) :
    (c :: letters, kind) ∈ candidates := by
  obtain ⟨⟨word, k⟩, hmem, hafter⟩ := List.mem_filterMap.mp h
  cases word with
  | nil => cases hafter
  | cons d word =>
    rw [after] at hafter
    split at hafter
    · next hd =>
      cases hafter
      exact hd ▸ hmem
    · cases hafter

/-- The letters followed are those of a candidate. -/
theorem mem_of_follow {candidates : List (List Char × Kind)} {text letters : List Char}
    {kind : Kind} (h : follow candidates text = some (letters, kind)) :
    (letters, kind) ∈ candidates := by
  induction text generalizing candidates letters with
  | nil => cases h
  | cons c rest ih =>
    rw [follow] at h
    dsimp only at h
    split at h
    · next hfinished =>
      cases h
      exact mem_of_after (mem_of_finished hfinished)
    · split at h
      · cases h
      · obtain ⟨⟨more, k⟩, hfollow, heq⟩ := Option.map_eq_some_iff.mp h
        cases heq
        exact mem_of_after (ih hfollow)

/-- Reserved words are spelled as their kinds allow. -/
theorem spelled_word {text letters : List Char} {kind : Kind}
    (h : word? text = some (letters, kind)) (p : Position) :
    Token.Spelled { lexeme := String.ofList letters, kind, position := p } := by
  have hmem := mem_of_follow h
  simp only [words, List.mem_cons, Prod.mk.injEq, List.not_mem_nil, or_false] at hmem
  rcases hmem with ⟨rfl, rfl⟩ | ⟨rfl, rfl⟩ | ⟨rfl, rfl⟩ | ⟨rfl, rfl⟩ | ⟨rfl, rfl⟩ | ⟨rfl, rfl⟩ |
    ⟨rfl, rfl⟩ | ⟨rfl, rfl⟩ <;> simp [Token.Spelled]

end Reserved

namespace Scan

private theorem spelled_readQuoted {p : Position} {c : Char} {lexeme : List Char} {kind : Kind}
    {quoted : Bool} (h : readQuoted p c = .token lexeme kind quoted) :
    Token.Spelled { lexeme := String.ofList lexeme, kind, position := p } := by
  unfold readQuoted at h
  split at h
  · next hc =>
    cases h
    exact ⟨c, rfl, hc⟩
  · split at h
    · cases h
      trivial
    · cases h

private theorem spelled_readPlain {p : Position} {c : Char} {rest lexeme : List Char} {kind : Kind}
    {quoted : Bool} (h : readPlain p c rest = .token lexeme kind quoted) :
    Token.Spelled { lexeme := String.ofList lexeme, kind, position := p } := by
  unfold readPlain at h
  rcases ite_eq_iff.mp h with ⟨_, h⟩ | ⟨_, h⟩
  · cases h
  rcases ite_eq_iff.mp h with ⟨_, h⟩ | ⟨_, h⟩
  · cases h
    trivial
  rcases ite_eq_iff.mp h with ⟨_, h⟩ | ⟨_, h⟩
  · cases hword : Reserved.word? (c :: rest) with
    | none =>
      rw [hword] at h
      cases h
      trivial
    | some word =>
      rw [hword] at h
      cases h
      exact Reserved.spelled_word hword p
  rcases ite_eq_iff.mp h with ⟨hc, h⟩ | ⟨_, h⟩
  · cases h
    exact ⟨c, rfl, hc⟩
  -- The signs whose kind asks nothing of the lexeme.
  iterate 5
    rcases ite_eq_iff.mp h with ⟨_, h⟩ | ⟨_, h⟩
    · cases h
      trivial
  rcases ite_eq_iff.mp h with ⟨_, h⟩ | ⟨_, h⟩
  · rcases ite_eq_iff.mp h with ⟨_, h⟩ | ⟨_, h⟩
    · cases h
      exact .inl rfl
    · cases h
      trivial
  rcases ite_eq_iff.mp h with ⟨_, h⟩ | ⟨_, h⟩
  · rcases ite_eq_iff.mp h with ⟨_, h⟩ | ⟨_, h⟩
    · cases h
      exact .inr rfl
    · cases h
  rcases ite_eq_iff.mp h with ⟨_, h⟩ | ⟨_, h⟩
  · cases h
    trivial
  · cases h

private theorem spelled_ofChars {quoted : Bool} {held : Nat} {p : Position} {chars : List Char} :
    ∀ t ∈ (ofChars quoted held p chars).tokens, t.Spelled := by
  induction chars generalizing quoted held p with
  | nil =>
    rw [ofChars]
    simp
  | cons c rest ih =>
    cases held with
    | succ n =>
      rw [ofChars]
      exact ih
    | zero =>
      rw [ofChars]
      split
      · exact ih
      · simp
      · next lexeme kind quoted' hread =>
        have hspelled : Token.Spelled { lexeme := String.ofList lexeme, kind, position := p } := by
          unfold read at hread
          split at hread
          · exact spelled_readQuoted hread
          · exact spelled_readPlain hread
        dsimp only
        split
        · simpa using hspelled
        · intro t ht
          rcases List.mem_cons.mp ht with rfl | ht
          · exact hspelled
          · exact ih t ht

/-- Every token of a text that can be read is spelled as its kind allows. -/
theorem spelled_result {source : String} {tokens : List Token}
    (h : (ofSource source).result = .ok tokens) : ∀ t ∈ tokens, t.Spelled := by
  unfold result at h
  split at h
  · cases h
  · cases h
    exact spelled_ofChars

end Scan

end OnePage
