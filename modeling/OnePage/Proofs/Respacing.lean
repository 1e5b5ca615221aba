import OnePage.Proofs.Splitting

/-!
# Scanning again

The tokens of a text can be written down again with other blanks between them: any number outside
quotes, but at least one, and none inside. Each token is then read as it was, since no token goes
on past a blank, and what separated it from the next one in the first text has left no trace.
-/

namespace OnePage

/-- The text is the lexemes of the tokens in order, starting inside quotes if `quoted` says so, with
blanks between two tokens outside quotes and nothing between tokens inside. -/
inductive Respaced : Bool → List Token → List Char → Prop where
  | nil {quoted : Bool} : Respaced quoted [] []
  | last {quoted : Bool} {t : Token} : Respaced quoted [t] t.lexeme.toList
  | outside {quoted : Bool} {t u : Token} {tokens : List Token} {gap text : List Char} :
      (quoted != (t.kind == .quote)) = false → gap ≠ [] → (∀ c ∈ gap, isGap c) →
      Respaced false (u :: tokens) text →
      Respaced quoted (t :: u :: tokens) (t.lexeme.toList ++ (gap ++ text))
  | inside {quoted : Bool} {t u : Token} {tokens : List Token} {text : List Char} :
      (quoted != (t.kind == .quote)) = true → Respaced true (u :: tokens) text →
      Respaced quoted (t :: u :: tokens) (t.lexeme.toList ++ text)

/-! ### One token -/

/-- No reserved word begins with a letter that nothing or a blank follows. -/
theorem Reserved.not_prefix_of_gap {c : Char} {rest : List Char} (h : ∀ b ∈ rest.head?, isGap b) :
    ∀ word ∈ words, ¬ word.1 <+: c :: rest := by
  cases rest with
  | nil =>
    have hlengths : ∀ word ∈ words, 1 < word.1.length := by decide +kernel
    intro word hword hbegins
    exact Nat.not_le_of_lt (hlengths word hword) hbegins.length_le
  | cons b rest =>
    have hb : isBreak b := Bool.or_eq_true_iff.mpr (.inl (h b rfl))
    exact word?_eq_none_iff.mp (word?_eq_none hb rest)

namespace Scan

variable {quoted later : Bool} {c : Char} {cs rest other : List Char} {kind : Kind}

/-- A token that starts with a letter outside quotes is read again before nothing or a blank. -/
theorem readLetter_again {p : Position} (q : Position) (hc : isLetter c)
    (hother : later = false → ∀ b ∈ other.head?, isGap b)
    (h : read false p c (cs ++ rest) = .token (c :: cs) kind later) :
    read false q c (cs ++ other) = .token (c :: cs) kind later := by
  obtain ⟨_, _, _, _, hpiece, _, _, hread⟩ := read_letter hc p (cs ++ rest)
  rw [h] at hread
  cases hread
  obtain ⟨letters, found, _, _, hagain, _, _, hread⟩ := read_letter hc q (cs ++ other)
  rw [hread]
  cases hpiece with
  | word hmem _ =>
    have hbegins : c :: cs <+: c :: (cs ++ other) := ⟨other, rfl⟩
    have heq := (hagain.eq_iff hmem).mpr hbegins
    simp only [Prod.mk.injEq] at heq
    rw [heq.1, heq.2]
  | letter _ _ =>
    rw [List.nil_append] at hagain
    obtain ⟨hletters, hfound⟩ := hagain.eq_letter (Reserved.not_prefix_of_gap (hother rfl))
    rw [hletters, hfound]

/-- A token that starts with no letter outside quotes is read again before nothing or a blank, and
quotes that open before any text. -/
theorem readPlain_again {p : Position} (q : Position) (hc : ¬ isLetter c)
    (hother : later = false → ∀ b ∈ other.head?, isGap b)
    (h : readPlain p c (cs ++ rest) = .token (c :: cs) kind later) :
    readPlain q c (cs ++ other) = .token (c :: cs) kind later := by
  cases sign_readPlain hc h with
  | single hread => exact hread q other
  | joined _ hread => exact hread q ('=' :: other) rfl
  | alone hread =>
    refine hread q other fun hequals ↦ ?_
    exact absurd (hother rfl '=' hequals) (by decide)

/-- A token is read again from its lexeme, before any text if that is inside quotes, and else before
nothing or a blank. -/
theorem read_again {p : Position} (q : Position)
    (h : read quoted p c (cs ++ rest) = .token (c :: cs) kind later)
    (hother : later = false → ∀ b ∈ other.head?, isGap b) :
    read quoted q c (cs ++ other) = .token (c :: cs) kind later := by
  cases quoted with
  | true =>
    change readQuoted p c = _ at h
    change readQuoted q c = _
    unfold readQuoted at h ⊢
    iterate 2
      rcases ite_eq_iff.mp h with ⟨hcase, h⟩ | ⟨hcase, h⟩
      · rw [if_pos hcase]
        exact h
      rw [if_neg hcase]
    cases h
  | false =>
    by_cases hc : isLetter c
    · exact readLetter_again q hc hother h
    · exact readPlain_again q hc hother h

end Scan

/-! ### All tokens -/

/-- Each of the tokens, the first of them inside quotes if `quoted` says so, is read from its lexeme
before any text that leaves it as it is. Only the last can be the sentinel. -/
inductive Rereads : Bool → List Token → Prop where
  | nil {quoted : Bool} : Rereads quoted []
  | cons {quoted : Bool} {t : Token} {tokens : List Token} {c : Char} {cs : List Char} :
      t.lexeme = String.ofList (c :: cs) →
      (∀ p other, ((quoted != (t.kind == .quote)) = false → ∀ b ∈ other.head?, isGap b) →
        Scan.read quoted p c (cs ++ other) =
          .token (c :: cs) t.kind (quoted != (t.kind == .quote))) →
      (t.kind = .eof → tokens = []) → Rereads (quoted != (t.kind == .quote)) tokens →
      Rereads quoted (t :: tokens)

namespace Scan

/-- The tokens of a scan are read again. -/
theorem rereads_ofChars (chars : List Char) (quoted : Bool) (held : Nat) (p : Position) :
    Rereads quoted (ofChars quoted held p chars).tokens := by
  induction chars generalizing quoted held p with
  | nil =>
    rw [ofChars]
    exact .nil
  | cons c rest ih =>
    cases held with
    | succ n =>
      rw [ofChars]
      exact ih quoted n (p.advance c)
    | zero =>
      rw [ofChars]
      cases hread : read quoted p c rest with
      | skip => exact ih quoted 0 (p.advance c)
      | fault e => exact .nil
      | token lexeme kind later =>
        obtain ⟨⟨cs, rfl, back, rfl⟩, hreads⟩ := reads_read hread
        have hlater := hreads.later_eq
        subst hlater
        dsimp only
        by_cases heof : kind = .eof
        · rw [if_pos heof]
          exact .cons rfl (fun q other ↦ read_again q hread) (fun _ ↦ rfl) .nil
        · rw [if_neg heof]
          exact .cons rfl (fun q other ↦ read_again q hread) (absurd · heof) (ih _ _ _)

private theorem error?_cons (t : Token) (s : Scan) : (cons t s).error? = s.error? := rfl

end Scan

/-- The first of some tokens is scanned again, and then what comes after it, unless it is the
sentinel. -/
theorem Rereads.scan {quoted : Bool} {t : Token} {tokens : List Token} {rest : List Char}
    (h : Rereads quoted (t :: tokens)) (hkind : t.kind ≠ .eof)
    (hrest : (quoted != (t.kind == .quote)) = false → ∀ b ∈ rest.head?, isGap b) (p : Position) :
    ∃ q, Scan.ofChars quoted 0 p (t.lexeme.toList ++ rest) =
      .cons { t with position := p } (Scan.ofChars (quoted != (t.kind == .quote)) 0 q rest) := by
  cases h with
  | @cons _ _ _ c cs hlexeme hread _ _ =>
    obtain ⟨q, hq⟩ := Scan.ofChars_held (quoted != (t.kind == .quote)) cs rest (p.advance c)
    refine ⟨q, ?_⟩
    rw [hlexeme, String.toList_ofList, List.cons_append,
      Scan.ofChars_token (hread p rest hrest) hkind, hq]

private theorem Rereads.tail {quoted : Bool} {t : Token} {tokens : List Token}
    (h : Rereads quoted (t :: tokens)) : Rereads (quoted != (t.kind == .quote)) tokens := by
  cases h with
  | cons _ _ _ htail => exact htail

/-- Only the last of some tokens can be the sentinel. -/
theorem Rereads.kind_ne {quoted : Bool} {t u : Token} {tokens : List Token}
    (h : Rereads quoted (t :: u :: tokens)) : t.kind ≠ .eof := by
  cases h with
  | cons _ _ hlast _ => exact fun heof ↦ nomatch hlast heof

namespace Scan

/-- A token at the end of a text is scanned again, the sentinel too. -/
theorem ofChars_last {quoted : Bool} {t : Token} (h : Rereads quoted [t]) (p : Position) :
    (ofChars quoted 0 p t.lexeme.toList).tokens.map Token.word = [t.word] ∧
      (ofChars quoted 0 p t.lexeme.toList).error? = none := by
  by_cases heof : t.kind = .eof
  · cases h with
    | @cons _ _ _ c cs hlexeme hread _ _ =>
      have hlast := hread p [] (by simp)
      rw [List.append_nil] at hlast
      rw [hlexeme, String.toList_ofList, ofChars, hlast]
      dsimp only
      rw [if_pos heof]
      simp [Token.word, error?, hlexeme]
  · have hnone : ∀ b ∈ ([] : List Char).head?, isGap b := by simp
    obtain ⟨q, hq⟩ := h.scan heof (fun _ ↦ hnone) p
    rw [List.append_nil] at hq
    rw [hq]
    exact ⟨rfl, rfl⟩

/-- Tokens that are written down again are scanned again. -/
theorem ofChars_respaced {quoted : Bool} {tokens : List Token} {text : List Char}
    (h : Respaced quoted tokens text) (hreads : Rereads quoted tokens) (p : Position) :
    (ofChars quoted 0 p text).tokens.map Token.word = tokens.map Token.word ∧
      (ofChars quoted 0 p text).error? = none := by
  induction h generalizing p with
  | nil => exact ⟨rfl, rfl⟩
  | last => exact ofChars_last hreads p
  | @outside quoted t u tokens gap text hlater hne hgap _ ih =>
    have hblank : ∀ b ∈ (gap ++ text).head?, isGap b := by
      obtain ⟨b, gap, rfl⟩ := List.exists_cons_of_ne_nil hne
      rintro _ ⟨⟩
      exact hgap b (List.mem_cons_self ..)
    obtain ⟨q, hq⟩ := hreads.scan hreads.kind_ne (fun _ ↦ hblank) p
    have hrest := hreads.tail
    rw [hlater] at hq hrest
    obtain ⟨q', hskip⟩ := ofChars_gap hgap text q
    obtain ⟨hwords, hok⟩ := ih hrest q'
    rw [hq, hskip, error?_cons]
    exact ⟨congrArg (t.word :: ·) hwords, hok⟩
  | @inside quoted t u tokens text hlater _ ih =>
    obtain ⟨q, hq⟩ := hreads.scan hreads.kind_ne (fun h ↦ by rw [hlater] at h; cases h) p
    have hrest := hreads.tail
    rw [hlater] at hq hrest
    obtain ⟨hwords, hok⟩ := ih hrest q
    rw [hq, error?_cons]
    exact ⟨congrArg (t.word :: ·) hwords, hok⟩

end Scan

/-- A text that has the tokens of a source in order, with blanks between them outside quotes and
nothing inside, is scanned as the same tokens. -/
theorem scan_respaced (source other : String) (tokens : List Token)
    (h : (Scan.ofSource source).result = .ok tokens) (hother : Respaced false tokens other.toList) :
    ∃ again, (Scan.ofSource other).result = .ok again ∧
      again.map Token.word = tokens.map Token.word := by
  obtain ⟨htokens, _⟩ := Scan.result_eq_ok.mp h
  have hreads : Rereads false tokens := by
    rw [← htokens]
    exact Scan.rereads_ofChars source.toList false 0 .start
  obtain ⟨hwords, hok⟩ := Scan.ofChars_respaced hother hreads .start
  exact ⟨_, Scan.result_eq_ok.mpr ⟨rfl, hok⟩, hwords⟩

/-- Two letters that would be a reserved word without the blank, a text, signs that would be read
otherwise with a blank elsewhere, and quotes that are never closed. -/
def apart : List Token :=
  [⟨"i", .identifier, ⟨1, 1⟩⟩, ⟨"f", .identifier, ⟨1, 3⟩⟩, ⟨"\"", .quote, ⟨1, 4⟩⟩,
   ⟨" ", .char, ⟨1, 5⟩⟩, ⟨"\"", .quote, ⟨1, 6⟩⟩, ⟨"!=", .boolOp, ⟨1, 7⟩⟩, ⟨"=", .assign, ⟨1, 9⟩⟩,
   ⟨"\"", .quote, ⟨1, 10⟩⟩, ⟨"a", .char, ⟨1, 11⟩⟩]

/-- Tokens that stand close together are scanned again from a text of three lines. -/
theorem scan_respaced_apart :
    (Scan.ofSource "i f\" \"!==\"a").result = .ok apart ∧
    Respaced false apart "i\n\tf \" \"\r!=\n=  \"a".toList ∧
    ∃ again, (Scan.ofSource "i\n\tf \" \"\r!=\n=  \"a").result = .ok again ∧
      again.map Token.word = apart.map Token.word := by
  have hscan : (Scan.ofSource "i f\" \"!==\"a").result = .ok apart := by
    exact Scan.result_eq_ok.mpr ⟨by decide +kernel, by decide +kernel⟩
  have hother : Respaced false apart "i\n\tf \" \"\r!=\n=  \"a".toList := by
    have htext : "i\n\tf \" \"\r!=\n=  \"a".toList =
        "i".toList ++ (['\n', '\t'] ++ ("f".toList ++ ([' '] ++ ("\"".toList ++ (" ".toList ++
          ("\"".toList ++ (['\r'] ++ ("!=".toList ++ (['\n'] ++ ("=".toList ++ ([' ', ' '] ++
            ("\"".toList ++ "a".toList)))))))))))) := by
      decide +kernel
    rw [htext]
    refine .outside rfl (by simp) (by simp [isGap]) ?_
    refine .outside rfl (by simp) (by simp [isGap]) (.inside rfl (.inside rfl ?_))
    refine .outside rfl (by simp) (by simp [isGap]) ?_
    refine .outside rfl (by simp) (by simp [isGap]) ?_
    exact .outside rfl (by simp) (by simp [isGap]) (.inside rfl .last)
  exact ⟨hscan, hother, scan_respaced _ _ _ hscan hother⟩

end OnePage
