import OnePage.Proofs.Writing

/-!
# Tokens stand where they say

A text that is scanned is, up to its sentinel, the lexemes of its tokens in order. Outside quotes
there may be blanks before a token, inside there is nothing between one token and the next. The
place of a token counts the lines and columns of all that stands before it.
-/

namespace OnePage

/-! ### Places -/

namespace Position

/-- The place right after a text: on a line more than it has line feeds, in a column more than it
has characters after the last of them. -/
def after (text : List Char) : Position :=
  ⟨1 + text.count '\n', 1 + (text.reverse.takeWhile (· != '\n')).length⟩

/-- One place comes before another: on an earlier line, or on the same line further left. -/
def Before (p q : Position) : Prop := p.line < q.line ∨ p.line = q.line ∧ p.column < q.column

/-- One more character moves the place after a text as it moves any place. -/
theorem after_concat (text : List Char) (c : Char) :
    after (text ++ [c]) = (after text).advance c := by
  unfold after advance
  by_cases hc : c = '\n'
  · simp [hc, Nat.add_assoc]
  · simp [hc, Nat.add_assoc]

private theorem before_advance (p : Position) (c : Char) : p.Before (p.advance c) := by
  unfold Before advance
  split
  · exact .inl (Nat.lt_succ_self _)
  · exact .inr ⟨rfl, Nat.lt_succ_self _⟩

private theorem Before.trans {p q r : Position} (h : p.Before q) (k : q.Before r) : p.Before r := by
  unfold Before at *
  omega

private theorem Before.ne {p q : Position} (h : p.Before q) : p ≠ q := by
  rintro rfl
  unfold Before at h
  omega

/-- A longer text ends at a later place. -/
theorem after_before (front more : List Char) (h : more ≠ []) :
    (after front).Before (after (front ++ more)) := by
  induction more generalizing front with
  | nil => exact absurd rfl h
  | cons c more ih =>
    have hnext : (after front).Before (after (front ++ [c])) := by
      rw [after_concat]
      exact before_advance _ c
    rw [List.append_cons]
    by_cases hmore : more = []
    · rwa [hmore, List.append_nil]
    · exact hnext.trans (ih (front ++ [c]) hmore)

/-- A text can be cut at a place in one way only. -/
theorem after_inj {text front other : List Char} (hf : front <+: text) (ho : other <+: text)
    (h : after front = after other) : front = other := by
  rcases List.prefix_or_prefix_of_prefix hf ho with ⟨more, rfl⟩ | ⟨more, rfl⟩
  · by_cases hmore : more = []
    · rw [hmore, List.append_nil]
    · exact absurd h (after_before front more hmore).ne
  · by_cases hmore : more = []
    · rw [hmore, List.append_nil]
    · exact absurd h.symm (after_before other more hmore).ne

end Position

/-! ### Texts and their tokens -/

/-- The text up to the first sentinel outside quotes, that sentinel included, or all of it if there
is none. -/
def upToSentinel (quoted : Bool) : List Char → List Char
  | [] => []
  | c :: rest =>
    if !quoted && c == '$' then [c] else c :: upToSentinel (quoted != (c == '"')) rest

/-- After `front`, and inside quotes if `quoted` says so, the text has the tokens in order, each at
its place, and nothing else but blanks outside quotes. -/
inductive Spaced : List Char → Bool → List Token → List Char → Prop where
  | blanks {front gap : List Char} {quoted : Bool} : (∀ c ∈ gap, isGap c) →
      (quoted → gap = []) → Spaced front quoted [] gap
  | token {front gap text : List Char} {quoted : Bool} {t : Token} {tokens : List Token} :
      (∀ c ∈ gap, isGap c) → (quoted → gap = []) → t.lexeme.toList ≠ [] →
      t.position = .after (front ++ gap) →
      Spaced (front ++ gap ++ t.lexeme.toList) (quoted != (t.kind == .quote)) tokens text →
      Spaced front quoted (t :: tokens) (gap ++ t.lexeme.toList ++ text)

private theorem upToSentinel_prefix (quoted : Bool) (text : List Char) :
    upToSentinel quoted text <+: text := by
  induction text generalizing quoted with
  | nil => exact List.prefix_refl []
  | cons c rest ih =>
    rw [upToSentinel]
    split
    · exact ⟨rest, rfl⟩
    · exact List.cons_prefix_cons.mpr ⟨rfl, ih _⟩

/-- Characters that are neither sentinels nor quotes do not matter to where a text ends. -/
theorem upToSentinel_append {chars : List Char} (h : ∀ c ∈ chars, c ≠ '$' ∧ c ≠ '"')
    (quoted : Bool) (rest : List Char) :
    upToSentinel quoted (chars ++ rest) = chars ++ upToSentinel quoted rest := by
  induction chars with
  | nil => rfl
  | cons c chars ih =>
    obtain ⟨⟨hsentinel, hquote⟩, hchars⟩ := List.forall_mem_cons.mp h
    simp [upToSentinel, beq_false_of_ne hsentinel, beq_false_of_ne hquote, ih hchars]

namespace Spaced

variable {front text : List Char} {quoted : Bool} {tokens : List Token}

/-- A blank may stand before anything outside quotes. -/
theorem blank {c : Char} (hc : isGap c) (h : Spaced (front ++ [c]) false tokens text) :
    Spaced front false tokens (c :: text) := by
  cases h with
  | blanks hgap _ => exact .blanks (List.forall_mem_cons.mpr ⟨hc, hgap⟩) (nomatch ·)
  | @token _ gap text _ t tokens hgap _ hne hplace hrest =>
    rw [List.append_assoc front [c] gap] at hplace hrest
    exact .token (List.forall_mem_cons.mpr ⟨hc, hgap⟩) (nomatch ·) hne hplace hrest

/-- A token may stand where the text begins. -/
theorem here {t : Token} {chars : List Char} (hlexeme : t.lexeme.toList = chars) (hne : chars ≠ [])
    (hplace : t.position = .after front)
    (h : Spaced (front ++ chars) (quoted != (t.kind == .quote)) tokens text) :
    Spaced front quoted (t :: tokens) (chars ++ text) := by
  subst hlexeme
  rw [← List.append_nil front] at hplace h
  exact .token (List.forall_mem_nil _) (fun _ ↦ rfl) hne hplace h

/-- Each token stands at its place. -/
theorem exists_front (h : Spaced front quoted tokens text) {t : Token} (ht : t ∈ tokens) :
    ∃ before after, text = before ++ (t.lexeme.toList ++ after) ∧
      t.position = .after (front ++ before) := by
  induction h with
  | blanks _ _ => cases ht
  | @token front gap text quoted u tokens _ _ _ hplace _ ih =>
    rcases List.mem_cons.mp ht with rfl | ht
    · exact ⟨gap, text, List.append_assoc .., hplace⟩
    · obtain ⟨before, after, rfl, hp⟩ := ih ht
      refine ⟨gap ++ u.lexeme.toList ++ before, after, by simp, ?_⟩
      rw [hp]
      simp only [List.append_assoc]

/-- Tokens come one after the other. -/
theorem increasing (h : Spaced front quoted tokens text) :
    tokens.Pairwise fun t u ↦ t.position.Before u.position := by
  induction h with
  | blanks _ _ => exact .nil
  | @token front gap text quoted t tokens _ _ hne hplace hrest ih =>
    refine .cons (fun u hu ↦ ?_) ih
    obtain ⟨before, _, _, hu⟩ := hrest.exists_front hu
    rw [hplace, hu, List.append_assoc (front ++ gap)]
    exact Position.after_before _ _ fun h ↦ hne (List.append_eq_nil_iff.mp h).1

end Spaced

/-! ### What is read -/

namespace Scan

/-- What reading a token says of it: a quote opens or closes quotes, the sentinel stands outside
them, and any other token has neither sentinel nor quote in it. -/
inductive Reads (quoted : Bool) : List Char → Kind → Bool → Prop where
  | quote : Reads quoted ['"'] .quote (!quoted)
  | sentinel : quoted = false → Reads quoted ['$'] .eof quoted
  | plain {lexeme : List Char} {kind : Kind} : kind ≠ .quote → kind ≠ .eof →
      (∀ c ∈ lexeme, c ≠ '$' ∧ c ≠ '"') → Reads quoted lexeme kind quoted

private theorem Reads.one {quoted : Bool} {c : Char} {kind : Kind}
    (hkind : kind ≠ .quote ∧ kind ≠ .eof) (hc : c ≠ '$' ∧ c ≠ '"') : Reads quoted [c] kind quoted :=
  .plain hkind.1 hkind.2 (List.forall_mem_singleton.mpr hc)

/-- A letter is neither a sentinel nor a quote. -/
theorem isLetter_ne {c : Char} (h : isLetter c) : c ≠ '$' ∧ c ≠ '"' := by
  constructor <;>
  · rintro rfl
    cases h

/-- A character between tokens is neither a sentinel nor a quote. -/
theorem isGap_ne {c : Char} (h : isGap c) : c ≠ '$' ∧ c ≠ '"' := by
  constructor <;>
  · rintro rfl
    cases h

/-- A reserved word is what the text begins with, and has neither sentinel nor quote in it. -/
theorem reads_word {c : Char} {rest letters : List Char} {kind : Kind}
    (h : Reserved.word? (c :: rest) = some (letters, kind)) :
    (∃ cs, letters = c :: cs ∧ cs <+: rest) ∧ Reads false letters kind false := by
  have hwords : ∀ word ∈ Reserved.words, word.2 ≠ .quote ∧ word.2 ≠ .eof ∧ word.1 ≠ [] ∧
      word.1.all isLetter := by decide +kernel
  obtain ⟨hquote, heof, hne, hletters⟩ := hwords _ (Reserved.mem_of_follow h)
  refine ⟨?_, .plain hquote heof fun d hd ↦ isLetter_ne (List.all_eq_true.mp hletters d hd)⟩
  cases letters with
  | nil => exact absurd rfl hne
  | cons d cs =>
    obtain ⟨rfl, hcs⟩ := List.cons_prefix_cons.mp (Reserved.prefix_of_follow h)
    exact ⟨cs, rfl, hcs⟩

/-- Inside quotes a token is one character, and is read as reading says. -/
theorem reads_readQuoted {p : Position} {c : Char} {lexeme : List Char} {kind : Kind}
    {later : Bool} (h : readQuoted p c = .token lexeme kind later) :
    lexeme = [c] ∧ Reads true lexeme kind later := by
  unfold readQuoted at h
  split at h
  · next hc =>
    cases h
    refine ⟨rfl, .one (by decide) ?_⟩
    rcases Bool.or_eq_true_iff.mp hc with hc | hc
    · exact isLetter_ne hc
    · rw [of_decide_eq_true hc]
      decide
  · split at h
    · next hc =>
      cases h
      exact ⟨rfl, hc ▸ .quote⟩
    · cases h

/-- A token read outside quotes is what the text begins with. -/
theorem reads_readPlain {p : Position} {c : Char} {rest lexeme : List Char} {kind : Kind}
    {later : Bool} (h : readPlain p c rest = .token lexeme kind later) :
    (∃ cs, lexeme = c :: cs ∧ cs <+: rest) ∧ Reads false lexeme kind later := by
  unfold readPlain at h
  rcases ite_eq_iff.mp h with ⟨_, h⟩ | ⟨_, h⟩
  · cases h
  rcases ite_eq_iff.mp h with ⟨rfl, h⟩ | ⟨_, h⟩
  · cases h
    exact ⟨⟨[], rfl, List.nil_prefix⟩, .quote⟩
  rcases ite_eq_iff.mp h with ⟨hc, h⟩ | ⟨_, h⟩
  · cases hword : Reserved.word? (c :: rest) with
    | none =>
      rw [hword] at h
      cases h
      exact ⟨⟨[], rfl, List.nil_prefix⟩, .one (by decide) (isLetter_ne hc)⟩
    | some word =>
      rw [hword] at h
      cases h
      exact reads_word hword
  rcases ite_eq_iff.mp h with ⟨hc, h⟩ | ⟨_, h⟩
  · cases h
    refine ⟨⟨[], rfl, List.nil_prefix⟩, .one (by decide) ?_⟩
    constructor <;>
    · rintro rfl
      cases hc
  -- The signs of one character.
  iterate 5
    rcases ite_eq_iff.mp h with ⟨rfl, h⟩ | ⟨_, h⟩
    · cases h
      exact ⟨⟨[], rfl, List.nil_prefix⟩, .one (by decide) (by decide)⟩
  rcases ite_eq_iff.mp h with ⟨hc, h⟩ | ⟨_, h⟩
  · rcases ite_eq_iff.mp h with ⟨hnext, h⟩ | ⟨_, h⟩
    · cases h
      obtain ⟨back, rfl⟩ := List.head?_eq_some_iff.mp hnext
      exact ⟨⟨['='], by rw [hc], back, rfl⟩, .plain (by decide) (by decide) (by simp)⟩
    · cases h
      exact ⟨⟨[], rfl, List.nil_prefix⟩, .one (by decide) (by rw [hc]; decide)⟩
  rcases ite_eq_iff.mp h with ⟨hc, h⟩ | ⟨_, h⟩
  · rcases ite_eq_iff.mp h with ⟨hnext, h⟩ | ⟨_, h⟩
    · cases h
      obtain ⟨back, rfl⟩ := List.head?_eq_some_iff.mp hnext
      exact ⟨⟨['='], by rw [hc], back, rfl⟩, .plain (by decide) (by decide) (by simp)⟩
    · cases h
  rcases ite_eq_iff.mp h with ⟨rfl, h⟩ | ⟨_, h⟩
  · cases h
    exact ⟨⟨[], rfl, List.nil_prefix⟩, .sentinel rfl⟩
  · cases h

/-- A token read is what the text begins with. -/
theorem reads_read {quoted later : Bool} {p : Position} {c : Char} {rest lexeme : List Char}
    {kind : Kind} (h : read quoted p c rest = .token lexeme kind later) :
    (∃ cs, lexeme = c :: cs ∧ cs <+: rest) ∧ Reads quoted lexeme kind later := by
  cases quoted with
  | false => exact reads_readPlain h
  | true =>
    obtain ⟨hlexeme, hreads⟩ := reads_readQuoted h
    exact ⟨⟨[], hlexeme, List.nil_prefix⟩, hreads⟩

private theorem readQuoted_ne_skip (p : Position) (c : Char) : readQuoted p c ≠ .skip := by
  unfold readQuoted
  intro h
  split at h
  · cases h
  · split at h <;> cases h

/-- Only blanks outside quotes are passed over. -/
theorem read_eq_skip {quoted : Bool} {p : Position} {c : Char} {rest : List Char}
    (h : read quoted p c rest = .skip) : quoted = false ∧ isGap c := by
  cases quoted with
  | true => exact absurd h (readQuoted_ne_skip p c)
  | false =>
    change readPlain p c rest = .skip at h
    unfold readPlain at h
    rcases ite_eq_iff.mp h with ⟨hgap, _⟩ | ⟨_, h⟩
    · exact ⟨rfl, hgap⟩
    rcases ite_eq_iff.mp h with ⟨_, h⟩ | ⟨_, h⟩
    · cases h
    rcases ite_eq_iff.mp h with ⟨_, h⟩ | ⟨_, h⟩
    · split at h <;> cases h
    · simp [ite_eq_iff] at h

/-- A quote changes whether what follows is inside quotes, and no other token does. -/
theorem Reads.later_eq {quoted later : Bool} {lexeme : List Char} {kind : Kind}
    (h : Reads quoted lexeme kind later) : later = (quoted != (kind == .quote)) := by
  cases h with
  | quote => simp
  | sentinel _ => cases quoted <;> rfl
  | plain hquote _ _ => simp [beq_false_of_ne hquote]

/-- A text goes on to its sentinel after any other token. -/
theorem Reads.upToSentinel_append {quoted later : Bool} {lexeme : List Char} {kind : Kind}
    (h : Reads quoted lexeme kind later) (hkind : kind ≠ .eof) (rest : List Char) :
    upToSentinel quoted (lexeme ++ rest) = lexeme ++ upToSentinel later rest := by
  cases h with
  | quote => simp [upToSentinel]
  | sentinel _ => exact absurd rfl hkind
  | plain _ _ hchars => exact OnePage.upToSentinel_append hchars quoted rest

/-- Tokens are scanned from a text in order and at their places. The first `held` characters belong
to the token before them. -/
theorem spaced_ofChars (chars : List Char) {quoted : Bool} {held : Nat} {front : List Char}
    (h : ∀ e, (ofChars quoted held (.after front) chars).ending ≠ .fault e) :
    Spaced (front ++ chars.take held) quoted (ofChars quoted held (.after front) chars).tokens
      (upToSentinel quoted (chars.drop held)) := by
  induction chars generalizing quoted held front with
  | nil =>
    rw [ofChars, List.take_nil, List.drop_nil, upToSentinel]
    exact .blanks (by simp) fun _ ↦ rfl
  | cons c rest ih =>
    cases held with
    | succ n =>
      rw [ofChars, ← Position.after_concat] at h ⊢
      rw [List.take_succ_cons, List.drop_succ_cons, List.append_cons]
      exact ih h
    | zero =>
      rw [ofChars] at h ⊢
      rw [List.take_zero, List.append_nil, List.drop_zero]
      cases hread : read quoted (.after front) c rest with
      | skip =>
        obtain ⟨rfl, hgap⟩ := read_eq_skip hread
        have hend := upToSentinel_append (List.forall_mem_singleton.mpr (isGap_ne hgap)) false rest
        rw [List.singleton_append, List.singleton_append] at hend
        rw [hread] at h
        simp only [← Position.after_concat] at h ⊢
        have hrest := ih h
        rw [List.take_zero, List.append_nil, List.drop_zero] at hrest
        rw [hend]
        exact hrest.blank hgap
      | fault e =>
        rw [hread] at h
        exact absurd rfl (h e)
      | token lexeme kind later =>
        rw [hread] at h
        dsimp only at h ⊢
        obtain ⟨⟨cs, rfl, back, rfl⟩, hreads⟩ := reads_read hread
        have hlexeme : (String.ofList (c :: cs)).toList = c :: cs := String.toList_ofList
        by_cases heof : kind = .eof
        · rw [if_pos heof]
          cases hreads with
          | quote | plain _ _ _ => contradiction
          | sentinel hquoted =>
            have htext : upToSentinel quoted ('$' :: ([] ++ back)) = ['$'] ++ [] := by
              rw [hquoted]
              rfl
            rw [htext]
            exact .here hlexeme (List.cons_ne_nil _ _) rfl
              (.blanks (List.forall_mem_nil _) fun _ ↦ rfl)
        · rw [if_neg heof] at h ⊢
          rw [← Position.after_concat] at h ⊢
          have hrest := ih h
          rw [List.length_cons, Nat.add_sub_cancel, List.take_left, List.drop_left,
            hreads.later_eq, ← List.append_cons] at hrest
          rw [← List.cons_append, hreads.upToSentinel_append heof, hreads.later_eq]
          exact .here hlexeme (List.cons_ne_nil _ _) rfl hrest

end Scan

/-- The tokens scanned from a source are, in order and with nothing but blanks outside quotes
between them, its text up to the sentinel. Their places increase, and the text at the place of a
token, which is one place in the source, begins with its lexeme. -/
theorem scan_spaced (source : String) (tokens : List Token)
    (h : (Scan.ofSource source).result = .ok tokens) :
    Spaced [] false tokens (upToSentinel false source.toList) ∧
      (tokens.Pairwise fun t u ↦ t.position.Before u.position) ∧
      ∀ t ∈ tokens, ∃ front back, source.toList = front ++ (t.lexeme.toList ++ back) ∧
        t.position = .after front ∧
        ∀ other rest, source.toList = other ++ rest → t.position = .after other →
          other = front := by
  have hspaced : Spaced [] false tokens (upToSentinel false source.toList) := by
    unfold Scan.result at h
    split at h
    · cases h
    · next hending =>
      cases h
      have hscan : ∀ e, (Scan.ofChars false 0 (.after []) source.toList).ending ≠ .fault e :=
        hending
      exact Scan.spaced_ofChars source.toList hscan
  refine ⟨hspaced, hspaced.increasing, fun t ht ↦ ?_⟩
  obtain ⟨front, back, htext, hplace⟩ := hspaced.exists_front ht
  obtain ⟨after, hsource⟩ := upToSentinel_prefix false source.toList
  have hcut : source.toList = front ++ (t.lexeme.toList ++ (back ++ after)) := by
    rw [← hsource, htext]
    simp only [List.append_assoc]
  refine ⟨front, back ++ after, hcut, hplace, fun other rest hother hsame ↦ ?_⟩
  exact Position.after_inj ⟨rest, hother.symm⟩ ⟨_, hcut.symm⟩ (hsame.symm.trans hplace)

/-- A source of three lines with a text that has a space in it, and more after its sentinel. -/
def threeLines : String := "\x7bint a\r\n\ta = 1\n print(\"b c\")\x7d $ \""

/-- Three lines are scanned as their tokens. -/
theorem scan_spaced_threeLines : ∃ tokens, (Scan.ofSource threeLines).result = .ok tokens ∧
    tokens.map (·.position.line) = [1, 1, 1, 2, 2, 2, 3, 3, 3, 3, 3, 3, 3, 3, 3, 3] ∧
    Spaced [] false tokens (upToSentinel false threeLines.toList) ∧
      (tokens.Pairwise fun t u ↦ t.position.Before u.position) ∧
      ∀ t ∈ tokens, ∃ front back, threeLines.toList = front ++ (t.lexeme.toList ++ back) ∧
        t.position = .after front ∧
        ∀ other rest, threeLines.toList = other ++ rest → t.position = .after other →
          other = front := by
  have hlines : (Scan.ofSource threeLines).result.toOption.map
      (·.map (·.position.line)) = some [1, 1, 1, 2, 2, 2, 3, 3, 3, 3, 3, 3, 3, 3, 3, 3] := by
    decide +kernel
  cases h : (Scan.ofSource threeLines).result with
  | error e =>
    rw [h] at hlines
    cases hlines
  | ok tokens =>
    rw [h] at hlines
    exact ⟨tokens, rfl, Option.some.inj hlines, scan_spaced _ _ h⟩

end OnePage
