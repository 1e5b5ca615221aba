import OnePage.Proofs.Stopping

/-!
# How letters are split

Following a text letter by letter finds the reserved word with which it begins, if there is one:
no reserved word begins another, so at most one of them agrees with the text. A run of letters
outside quotes is thus split from left to right, into a reserved word wherever one begins and into
single letters elsewhere.
-/

namespace OnePage

/-! ### Reserved words as prefixes -/

namespace Reserved

/-- No word begins another. -/
def PrefixFree (words : List (List Char × Kind)) : Prop :=
  ∀ v ∈ words, ∀ w ∈ words, v.1 <+: w.1 → v = w

private theorem prefixFree_words : PrefixFree words := by
  unfold PrefixFree
  decide +kernel

variable {candidates : List (List Char × Kind)} {text letters : List Char} {kind : Kind} {c : Char}

private theorem mem_after (h : (c :: letters, kind) ∈ candidates) :
    (letters, kind) ∈ candidates.filterMap (after c) :=
  List.mem_filterMap.mpr ⟨_, h, if_pos rfl⟩

/-- What is left of words none of which begins another is such too. -/
theorem PrefixFree.after (h : PrefixFree candidates) (c : Char) :
    PrefixFree (candidates.filterMap (after c)) := by
  intro v hv w hw hbegins
  have heq := h _ (mem_of_after hv) _ (mem_of_after hw) (List.cons_prefix_cons.mpr ⟨rfl, hbegins⟩)
  simp only [Prod.mk.injEq, List.cons.injEq, true_and] at heq
  exact Prod.ext heq.1 heq.2

private theorem finished?_of_mem (h : PrefixFree candidates) (hmem : ([], kind) ∈ candidates) :
    finished? candidates = some kind := by
  cases hfinished : finished? candidates with
  | none =>
    rw [finished?, Option.map_eq_none_iff, List.find?_eq_none] at hfinished
    exact absurd rfl (hfinished _ hmem)
  | some found =>
    have heq := h _ (mem_of_finished hfinished) _ hmem (List.prefix_refl [])
    rw [(Prod.mk.inj heq).2]

/-- Of candidates none of which begins another, the one with which the text begins is followed to
its end. -/
theorem follow_of_mem (h : PrefixFree candidates) (hmem : (letters, kind) ∈ candidates)
    (hne : letters ≠ []) (hbegins : letters <+: text) :
    follow candidates text = some (letters, kind) := by
  induction text generalizing candidates letters with
  | nil => exact absurd (List.prefix_nil.mp hbegins) hne
  | cons c rest ih =>
    cases letters with
    | nil => exact absurd rfl hne
    | cons d letters =>
      obtain ⟨rfl, hrest⟩ := List.cons_prefix_cons.mp hbegins
      have hagree := mem_after hmem
      rw [follow]
      dsimp only
      by_cases hend : letters = []
      · subst hend
        rw [finished?_of_mem (h.after d) hagree]
      · -- A word that ends here would begin the one that does not.
        have hunfinished : finished? (candidates.filterMap (Reserved.after d)) = none := by
          cases hfinished : finished? (candidates.filterMap (Reserved.after d)) with
          | none => rfl
          | some found =>
            have heq := h.after d _ (mem_of_finished hfinished) _ hagree List.nil_prefix
            exact absurd (Prod.mk.inj heq).1.symm hend
        have hsome : (candidates.filterMap (Reserved.after d)).isEmpty = false :=
          List.isEmpty_eq_false_iff.mpr (List.ne_nil_of_mem hagree)
        rw [hunfinished]
        simp [hsome, ih (h.after d) hagree hend hrest]

/-- The reserved word found is the one with which the text begins. -/
theorem word?_eq_some_iff :
    word? text = some (letters, kind) ↔ (letters, kind) ∈ words ∧ letters <+: text := by
  constructor
  · intro h
    exact ⟨mem_of_follow h, prefix_of_follow h⟩
  · rintro ⟨hmem, hbegins⟩
    have hwords : ∀ word ∈ words, word.1 ≠ [] := by decide +kernel
    exact follow_of_mem prefixFree_words hmem (hwords _ hmem) hbegins

/-- No reserved word is found if the text begins with none. -/
theorem word?_eq_none_iff : word? text = none ↔ ∀ word ∈ words, ¬ word.1 <+: text := by
  rw [Option.eq_none_iff_forall_not_mem]
  constructor
  · intro h word hmem hbegins
    exact h word (word?_eq_some_iff.mpr ⟨hmem, hbegins⟩)
  · intro h word hword
    obtain ⟨hmem, hbegins⟩ := word?_eq_some_iff.mp hword
    exact h word hmem hbegins

/-- A text begins with at most one reserved word. -/
theorem word_unique {v w : List Char × Kind} (hv : v ∈ words) (hw : w ∈ words)
    (hvtext : v.1 <+: text) (hwtext : w.1 <+: text) : v = w := by
  have hfound := word?_eq_some_iff.mpr ⟨hv, hvtext⟩
  rw [word?_eq_some_iff.mpr ⟨hw, hwtext⟩] at hfound
  exact (Option.some.inj hfound).symm

/-- What a text that starts with a letter begins with: the reserved word that begins there, or else
that letter. -/
inductive Piece (text : List Char) : List Char → Kind → Prop where
  | word {letters : List Char} {kind : Kind} :
      (letters, kind) ∈ words → letters <+: text → Piece text letters kind
  | letter {c : Char} : (∀ word ∈ words, ¬ word.1 <+: text) → [c] <+: text →
      Piece text [c] .identifier

/-- Letters are split from left to right into what they begin with each time. -/
inductive Split : List Char → List (List Char × Kind) → Prop where
  | nil : Split [] []
  | cons {letters rest : List Char} {kind : Kind} {pieces : List (List Char × Kind)} :
      Piece (letters ++ rest) letters kind → Split rest pieces →
      Split (letters ++ rest) ((letters, kind) :: pieces)

/-- A reserved word is what the text begins with, and no other piece is. -/
theorem Piece.eq_iff (h : Piece text letters kind) {word : List Char × Kind}
    (hword : word ∈ words) : (letters, kind) = word ↔ word.1 <+: text := by
  cases h with
  | word hmem hbegins =>
    constructor
    · rintro rfl
      exact hbegins
    · exact word_unique hmem hword hbegins
  | letter hnone _ =>
    have hkind : ∀ word ∈ words, word.2 ≠ .identifier := by decide +kernel
    constructor
    · rintro rfl
      exact absurd rfl (hkind _ hword)
    · intro hbegins
      exact absurd hbegins (hnone word hword)

/-- Where no reserved word begins, the piece is one letter. -/
theorem Piece.eq_letter (h : Piece (c :: text) letters kind)
    (hnone : ∀ word ∈ words, ¬ word.1 <+: c :: text) : letters = [c] ∧ kind = .identifier := by
  cases h with
  | word hmem hbegins => exact absurd hbegins (hnone _ hmem)
  | letter _ hbegins =>
    obtain ⟨rfl, _⟩ := List.cons_prefix_cons.mp hbegins
    exact ⟨rfl, rfl⟩

/-- What comes after letters does not matter to a piece of them. -/
theorem Piece.of_append {back : List Char} (h : Piece (text ++ back) letters kind)
    (hbegins : letters <+: text) : Piece text letters kind := by
  cases h with
  | word hmem _ => exact .word hmem hbegins
  | letter hnone _ =>
    exact .letter (fun word hmem hw ↦ hnone word hmem (hw.trans (List.prefix_append _ _))) hbegins

end Reserved

/-! ### Where scanning comes -/

/-- Whether what comes after a text is inside quotes. -/
def insideAfter (quoted : Bool) (text : List Char) : Bool :=
  text.foldl (fun inside c ↦ inside != (c == '"')) quoted

namespace Scan

/-- Scanning the source comes to the rest of it, with the front behind and the tokens read, inside
quotes if `quoted` says so, where `held` characters belong to the last token. -/
inductive ComesTo (source : List Char) :
    List Token → Bool → Nat → List Char → List Char → Prop where
  | start : ComesTo source [] false 0 [] source
  | held {tokens : List Token} {quoted : Bool} {n : Nat} {front rest : List Char} {c : Char} :
      ComesTo source tokens quoted (n + 1) front (c :: rest) →
      ComesTo source tokens quoted n (front ++ [c]) rest
  | skip {tokens : List Token} {quoted : Bool} {front rest : List Char} {c : Char} :
      ComesTo source tokens quoted 0 front (c :: rest) →
      read quoted (.after front) c rest = .skip →
      ComesTo source tokens quoted 0 (front ++ [c]) rest
  | token {tokens : List Token} {quoted later : Bool} {front rest lexeme : List Char} {c : Char}
      {kind : Kind} : ComesTo source tokens quoted 0 front (c :: rest) →
      read quoted (.after front) c rest = .token lexeme kind later → kind ≠ .eof →
      ComesTo source (tokens ++ [⟨String.ofList lexeme, kind, .after front⟩]) later
        (lexeme.length - 1) (front ++ [c]) rest

namespace ComesTo

variable {source front rest : List Char} {tokens : List Token} {quoted : Bool} {held : Nat}

/-- The whole scan is the tokens read, and then what is scanned from there. -/
theorem scan_eq (h : ComesTo source tokens quoted held front rest) :
    ofChars false 0 .start source =
      tokens.foldr cons (ofChars quoted held (.after front) rest) := by
  induction h with
  | start => rfl
  | held _ ih => rw [ih, ofChars, Position.after_concat]
  | skip _ hread ih => rw [ih, ofChars, hread, Position.after_concat]
  | token _ hread hkind ih =>
    rw [ih, ofChars, hread, List.foldr_append, Position.after_concat]
    dsimp only
    rw [if_neg hkind]
    rfl

/-- The tokens read come first in the scan. -/
theorem scan_begins {source : String}
    (h : ComesTo source.toList tokens quoted held front rest) :
    tokens <+: (ofSource source).tokens := by
  rw [ofSource, h.scan_eq, foldr_cons]
  exact List.prefix_append _ _

/-- Scanning goes on behind the characters that belong to a token. -/
theorem release {cs : List Char} (h : ComesTo source tokens quoted cs.length front (cs ++ rest)) :
    ComesTo source tokens quoted 0 (front ++ cs) rest := by
  induction cs generalizing front with
  | nil =>
    rw [List.append_nil]
    exact h
  | cons c cs ih =>
    rw [List.append_cons]
    exact ih h.held

end ComesTo

/-! ### Runs of letters -/

/-- A letter outside quotes is read as the piece with which the text begins. -/
theorem read_letter {c : Char} (hc : isLetter c) (p : Position) (rest : List Char) :
    ∃ cs kind back, rest = cs ++ back ∧ Reserved.Piece (c :: rest) (c :: cs) kind ∧
      kind ≠ .eof ∧ (c :: cs).all isLetter ∧
      read false p c rest = .token (c :: cs) kind false := by
  have hgap : ¬ (c = '\n' || c = ' ' || c = '\t' || c = '\r') = true := by
    intro hgap
    simp only [Bool.or_eq_true, decide_eq_true_eq] at hgap
    rcases hgap with ((rfl | rfl) | rfl) | rfl <;> cases hc
  have hread : read false p c rest = readPlain p c rest := rfl
  rw [readPlain, if_neg hgap, if_neg (isLetter_ne hc).2, if_pos hc] at hread
  cases hword : Reserved.word? (c :: rest) with
  | none =>
    rw [hword] at hread
    refine ⟨[], .identifier, rest, rfl, ?_, by decide, by simpa using hc, hread⟩
    exact .letter (Reserved.word?_eq_none_iff.mp hword) (by simp)
  | some found =>
    obtain ⟨letters, kind⟩ := found
    rw [hword] at hread
    obtain ⟨hmem, hbegins⟩ := Reserved.word?_eq_some_iff.mp hword
    have hwords : ∀ word ∈ Reserved.words, word.2 ≠ .eof ∧ word.1.all isLetter := by
      decide +kernel
    obtain ⟨heof, hletters⟩ := hwords _ hmem
    obtain ⟨⟨cs, rfl, back, rfl⟩, _⟩ := reads_word hword
    exact ⟨cs, kind, back, rfl, .word hmem hbegins, heof, hletters, hread⟩

/-- A token that begins with `c`, which is no letter, outside quotes and before `rest`. It is `c`
whatever comes after it, or it depends on whether an `=` does. -/
inductive Sign (c : Char) (rest : List Char) : List Char → Kind → Bool → Prop where
  | single {kind : Kind} {later : Bool} :
      (∀ p other, readPlain p c other = .token [c] kind later) → Sign c rest [c] kind later
  | joined {kind : Kind} : rest.head? = some '=' →
      (∀ p other, other.head? = some '=' → readPlain p c other = .token [c, '='] kind false) →
      Sign c rest [c, '='] kind false
  | alone {kind : Kind} :
      (∀ p other, other.head? ≠ some '=' → readPlain p c other = .token [c] kind false) →
      Sign c rest [c] kind false

/-- A token that begins with no letter is a sign. -/
theorem sign_readPlain {p : Position} {c : Char} {rest lexeme : List Char} {kind : Kind}
    {later : Bool} (hc : ¬ isLetter c) (h : readPlain p c rest = .token lexeme kind later) :
    Sign c rest lexeme kind later := by
  unfold readPlain at h
  rcases ite_eq_iff.mp h with ⟨_, h⟩ | ⟨hgap, h⟩
  · cases h
  rcases ite_eq_iff.mp h with ⟨hquote, h⟩ | ⟨hquote, h⟩
  · cases h
    subst hquote
    exact .single fun _ _ ↦ rfl
  rw [if_neg hc] at h
  rcases ite_eq_iff.mp h with ⟨hdigit, h⟩ | ⟨_, h⟩
  · cases h
    refine .single fun q other ↦ ?_
    rw [readPlain, if_neg hgap, if_neg hquote, if_neg hc, if_pos hdigit]
  -- The signs of one character.
  iterate 5
    rcases ite_eq_iff.mp h with ⟨hsign, h⟩ | ⟨_, h⟩
    · cases h
      subst hsign
      exact .single fun _ _ ↦ rfl
  rcases ite_eq_iff.mp h with ⟨hsign, h⟩ | ⟨_, h⟩
  · rcases ite_eq_iff.mp h with ⟨hnext, h⟩ | ⟨_, h⟩
    · cases h
      subst hsign
      exact .joined hnext fun q other hother ↦ by simp [readPlain, isLetter, hother]
    · cases h
      subst hsign
      exact .alone fun q other hother ↦ by simp [readPlain, isLetter, hother]
  rcases ite_eq_iff.mp h with ⟨hsign, h⟩ | ⟨_, h⟩
  · rcases ite_eq_iff.mp h with ⟨hnext, h⟩ | ⟨_, h⟩
    · cases h
      subst hsign
      exact .joined hnext fun q other hother ↦ by simp [readPlain, isLetter, hother]
    · cases h
  rcases ite_eq_iff.mp h with ⟨hsign, h⟩ | ⟨_, h⟩
  · cases h
    subst hsign
    exact .single fun _ _ ↦ rfl
  · cases h

/-- What belongs to a token behind its first character is an `=`, or letters behind a letter. -/
theorem read_tail {quoted later : Bool} {p : Position} {c : Char} {rest lexeme : List Char}
    {kind : Kind} (h : read quoted p c rest = .token lexeme kind later) :
    lexeme.length = 1 ∨ lexeme.length = 2 ∧ rest.head? = some '=' ∨
      isLetter c ∧ ∀ d ∈ rest.take (lexeme.length - 1), isLetter d := by
  cases quoted with
  | true =>
    rw [(reads_readQuoted h).1]
    exact .inl rfl
  | false =>
    by_cases hc : isLetter c
    · obtain ⟨cs, _, back, rfl, _, _, hletters, hread⟩ := read_letter hc p rest
      rw [hread] at h
      cases h
      refine .inr (.inr ⟨hc, fun d hd ↦ ?_⟩)
      rw [List.length_cons, Nat.add_sub_cancel, List.take_left] at hd
      exact List.all_eq_true.mp hletters d (List.mem_cons_of_mem c hd)
    · cases sign_readPlain hc h with
      | single _ | alone _ => exact .inl rfl
      | joined hnext _ => exact .inr (.inl ⟨rfl, hnext⟩)

/-- Letters with which a text begins are within the run with which it begins. -/
theorem prefix_of_letters {letters run back : List Char} (h : letters <+: run ++ back)
    (hletters : letters.all isLetter) (hends : ∀ c ∈ back.head?, isLetter c = false) :
    letters <+: run := by
  rcases List.prefix_or_prefix_of_prefix h (List.prefix_append run back) with hrun | ⟨more, rfl⟩
  · exact hrun
  · cases more with
    | nil => simp
    | cons d more =>
      obtain ⟨others, rfl⟩ := (List.prefix_append_right_inj run).mp h
      have hd : isLetter d := List.all_eq_true.mp hletters d (by simp)
      rw [hends d rfl] at hd
      cases hd

namespace ComesTo

variable {source front : List Char} {tokens : List Token}

/-- At a letter outside quotes a piece is read, and scanning goes on right behind it. -/
theorem letter {c : Char} {rest : List Char} (h : ComesTo source tokens false 0 front (c :: rest))
    (hc : isLetter c) : ∃ lexeme kind back, c :: rest = lexeme ++ back ∧
      Reserved.Piece (c :: rest) lexeme kind ∧ lexeme.all isLetter ∧ lexeme ≠ [] ∧
      ComesTo source (tokens ++ [⟨String.ofList lexeme, kind, .after front⟩]) false 0
        (front ++ lexeme) back := by
  obtain ⟨cs, kind, back, rfl, hpiece, hkind, hletters, hread⟩ := read_letter hc (.after front) rest
  refine ⟨c :: cs, kind, back, rfl, hpiece, hletters, List.cons_ne_nil _ _, ?_⟩
  rw [List.append_cons front c cs]
  exact (h.token hread hkind).release

/-- Characters that belong to a token are an `=`, or letters behind a letter. -/
theorem within {quoted : Bool} {held : Nat} {rest : List Char}
    (h : ComesTo source tokens quoted held front rest) :
    held = 0 ∨ held = 1 ∧ rest.head? = some '=' ∨
      (∃ d ∈ front.getLast?, isLetter d) ∧ ∀ d ∈ rest.take held, isLetter d := by
  induction h with
  | start => exact .inl rfl
  | skip _ _ _ => exact .inl rfl
  | @held _ _ n front rest c _ ih =>
    rcases ih with hzero | ⟨hone, _⟩ | ⟨_, hletters⟩
    · exact absurd hzero (Nat.succ_ne_zero n)
    · exact .inl (Nat.succ.inj hone)
    · rw [List.take_succ_cons, List.forall_mem_cons] at hletters
      exact .inr (.inr ⟨⟨c, by simp, hletters.1⟩, hletters.2⟩)
  | @token _ _ _ front rest lexeme c kind _ hread _ _ =>
    rcases read_tail hread with hone | ⟨htwo, hnext⟩ | ⟨hc, hletters⟩
    · exact .inl (by rw [hone])
    · exact .inr (.inl ⟨by rw [htwo], hnext⟩)
    · exact .inr (.inr ⟨⟨c, by simp, hc⟩, hletters⟩)

/-- Scanning comes wherever a reader does. -/
theorem passes {quoted : Bool} {held : Nat} {mid rest : List Char}
    (h : ComesTo source tokens quoted held front (mid ++ rest))
    (hheld : Held quoted held (mid ++ rest))
    (hpass : ∀ stop, firstStop quoted (mid ++ rest) = some stop →
      mid.length ≤ stop.before.length) :
    ∃ more n, ComesTo source (tokens ++ more) (insideAfter quoted mid) n (front ++ mid) rest := by
  induction mid generalizing tokens quoted held front with
  | nil =>
    refine ⟨[], held, ?_⟩
    rw [List.append_nil, List.append_nil]
    exact h
  | cons d mid ih =>
    rw [List.cons_append] at h hheld hpass
    have hlater (hat : Obstacle.at? quoted d (mid ++ rest).head? = none) (stop : Stop)
        (hstop : firstStop (quoted != (d == '"')) (mid ++ rest) = some stop) :
        mid.length ≤ stop.before.length := by
      have hle := hpass (stop.cons d) (by rw [firstStop_of_none hat, hstop]; rfl)
      exact Nat.le_of_succ_le_succ hle
    have hsame (hquote : d ≠ '"') : (quoted != (d == '"')) = quoted := by
      rw [beq_false_of_ne hquote, Bool.bne_false]
    rw [List.append_cons front d mid]
    cases held with
    | succ n =>
      obtain ⟨⟨hquote, hat⟩, hrest⟩ := hheld.cons
      have hlater := hlater (hat _)
      rw [hsame hquote] at hlater
      rw [insideAfter, List.foldl_cons, hsame hquote]
      exact ih h.held hrest hlater
    | zero =>
      have hreads := readsAs_read quoted (.after front) d (mid ++ rest)
      generalize hread : read quoted (.after front) d (mid ++ rest) = reading at hreads
      cases hreads with
      | skip hat hquote =>
        have hlater := hlater hat
        rw [hsame hquote] at hlater
        rw [insideAfter, List.foldl_cons, hsame hquote]
        exact ih (h.skip hread) (held_zero _ _) hlater
      | token cs hat hkind hcs =>
        obtain ⟨more, n, hmore⟩ := ih (h.token hread hkind) hcs (hlater hat)
        rw [List.append_assoc] at hmore
        exact ⟨_, n, hmore⟩
      | stop obstacle hat =>
        have hle := hpass _ (firstStop_of_some hat)
        cases hle

/-- A run of letters outside quotes is split, if no letter comes after it. -/
theorem splits {source front run back : List Char} {tokens : List Token}
    (h : ComesTo source tokens false 0 front (run ++ back))
    (hletters : ∀ c ∈ run, isLetter c) (hends : ∀ c ∈ back.head?, isLetter c = false) :
    ∃ pieces : List Token, Reserved.Split run (pieces.map fun t ↦ (t.lexeme.toList, t.kind)) ∧
      ComesTo source (tokens ++ pieces) false 0 (front ++ run) back := by
  match run with
  | [] =>
    refine ⟨[], .nil, ?_⟩
    rw [List.append_nil, List.append_nil]
    exact h
  | c :: run =>
    rw [List.cons_append] at h
    obtain ⟨lexeme, kind, rest, hsplit, hpiece, hlexeme, hne, hnext⟩ :=
      h.letter (hletters c (List.mem_cons_self ..))
    rw [← List.cons_append] at hsplit hpiece
    obtain ⟨others, hothers⟩ := prefix_of_letters ⟨rest, hsplit.symm⟩ hlexeme hends
    have hrest : rest = others ++ back := by
      rw [← hothers, List.append_assoc, List.append_cancel_left_eq] at hsplit
      exact hsplit.symm
    have hshorter : others.length < (c :: run).length := by
      have := List.length_pos_iff.mpr hne
      rw [← hothers, List.length_append]
      omega
    rw [hrest] at hnext
    obtain ⟨pieces, hpieces, hlast⟩ := splits hnext
      (fun d hd ↦ hletters d (by rw [← hothers]; exact List.mem_append_right lexeme hd)) hends
    rw [List.append_assoc, List.append_assoc, hothers] at hlast
    refine ⟨⟨String.ofList lexeme, kind, .after front⟩ :: pieces, ?_, hlast⟩
    rw [List.map_cons, String.toList_ofList, ← hothers]
    refine .cons ?_ hpieces
    rw [hothers]
    exact hpiece.of_append ⟨others, hothers⟩
termination_by run.length
decreasing_by exact hshorter

end ComesTo

end Scan

/-- A run of letters that cannot be made longer, with what stands before and after it. -/
structure LetterRun (front run back : List Char) : Prop where
  nonempty : run ≠ []
  letters : ∀ c ∈ run, Scan.isLetter c
  starts : ∀ c ∈ front.getLast?, Scan.isLetter c = false
  ends : ∀ c ∈ back.head?, Scan.isLetter c = false

/-- Scanning comes to the beginning of every run of letters that a reader comes to outside
quotes. -/
theorem LetterRun.met {source front run back : List Char} (h : LetterRun front run back)
    (hsource : source = front ++ (run ++ back)) (houtside : insideAfter false front = false)
    (hpass : ∀ stop, firstStop false source = some stop → front.length ≤ stop.before.length) :
    ∃ tokens, Scan.ComesTo source tokens false 0 front (run ++ back) := by
  have hstart : Scan.ComesTo source [] false 0 [] (front ++ (run ++ back)) := hsource ▸ .start
  rw [hsource] at hpass
  obtain ⟨tokens, held, hmet⟩ := hstart.passes (Scan.held_zero _ _) hpass
  rw [houtside, List.nil_append, List.nil_append] at hmet
  refine ⟨tokens, ?_⟩
  -- Neither an `=` nor a letter behind a letter begins the run.
  rcases hmet.within with rfl | ⟨_, hequals⟩ | ⟨⟨d, hlast, hd⟩, _⟩
  · exact hmet
  · obtain ⟨c, cs, rfl⟩ := List.exists_cons_of_ne_nil h.nonempty
    have hc := h.letters c (List.mem_cons_self ..)
    cases hequals
    cases hc
  · rw [h.starts d hlast] at hd
    cases hd

/-- Wherever scanning comes to a letter outside quotes, it reads the reserved word with which the
text begins there, if there is one, and else that letter as an identifier, and goes on right behind
it. So every run of letters that a reader comes to outside quotes is split from left to right. -/
theorem scan_splits_letters (source : String) :
    (∀ tokens front c rest, Scan.ComesTo source.toList tokens false 0 front (c :: rest) →
      Scan.isLetter c → ∃ lexeme kind back, c :: rest = lexeme ++ back ∧
        (∀ word ∈ Reserved.words, (lexeme, kind) = word ↔ word.1 <+: c :: rest) ∧
        ((∀ word ∈ Reserved.words, ¬ word.1 <+: c :: rest) → lexeme = [c] ∧ kind = .identifier) ∧
        tokens ++ [⟨String.ofList lexeme, kind, .after front⟩] <+: (Scan.ofSource source).tokens ∧
        Scan.ComesTo source.toList (tokens ++ [⟨String.ofList lexeme, kind, .after front⟩]) false 0
          (front ++ lexeme) back) ∧
      (∀ text, ∀ v ∈ Reserved.words, ∀ w ∈ Reserved.words, v.1 <+: text → w.1 <+: text → v = w) ∧
      ∀ front run back, source.toList = front ++ (run ++ back) → LetterRun front run back →
        insideAfter false front = false →
        (∀ stop, firstStop false source.toList = some stop → front.length ≤ stop.before.length) →
        ∃ tokens pieces : List Token,
          Reserved.Split run (pieces.map fun t ↦ (t.lexeme.toList, t.kind)) ∧
          tokens ++ pieces <+: (Scan.ofSource source).tokens ∧
          Scan.ComesTo source.toList tokens false 0 front (run ++ back) ∧
          Scan.ComesTo source.toList (tokens ++ pieces) false 0 (front ++ run) back := by
  refine ⟨fun tokens front c rest h hc ↦ ?_, fun text v hv w hw ↦ Reserved.word_unique hv hw,
    fun front run back hsource hrun houtside hpass ↦ ?_⟩
  · obtain ⟨lexeme, kind, back, hsplit, hpiece, _, _, hnext⟩ := h.letter hc
    exact ⟨lexeme, kind, back, hsplit, fun word hword ↦ hpiece.eq_iff hword, hpiece.eq_letter,
      hnext.scan_begins, hnext⟩
  · obtain ⟨tokens, hmet⟩ := hrun.met hsource houtside hpass
    obtain ⟨pieces, hpieces, hlast⟩ := hmet.splits hrun.letters hrun.ends
    exact ⟨tokens, pieces, hpieces, hlast.scan_begins, hmet, hlast⟩

/-- A run of letters in which reserved words overlap, between other tokens. -/
def overlapping : String := "(iffintrue!=t)$"

/-- Of two reserved words that overlap, the one that begins first is read. -/
theorem scan_splits_letters_overlapping :
    (Scan.ofSource overlapping).tokens.map (·.lexeme) =
      ["(", "if", "f", "int", "r", "u", "e", "!=", "t", ")", "$"] ∧
    ∃ tokens pieces : List Token,
      Reserved.Split "iffintrue".toList (pieces.map fun t ↦ (t.lexeme.toList, t.kind)) ∧
      tokens ++ pieces <+: (Scan.ofSource overlapping).tokens ∧
      Scan.ComesTo overlapping.toList tokens false 0 ['(']
        ("iffintrue".toList ++ "!=t)$".toList) ∧
      Scan.ComesTo overlapping.toList (tokens ++ pieces) false 0
        (['('] ++ "iffintrue".toList) "!=t)$".toList := by
  have hrun : LetterRun ['('] "iffintrue".toList "!=t)$".toList := by
    constructor
    · decide +kernel
    · rw [← List.all_eq_true]
      decide +kernel
    · rintro _ ⟨⟩
      rfl
    · rintro _ ⟨⟩
      rfl
  have hstop : firstStop false overlapping.toList =
      some { before := "(iffintrue!=t)".toList, char := '$', obstacle := .sentinel } := by
    decide +kernel
  refine ⟨by decide +kernel, ?_⟩
  refine (scan_splits_letters overlapping).2.2 _ _ _ (by decide +kernel) hrun rfl ?_
  intro stop h
  rw [hstop] at h
  cases h
  decide +kernel

end OnePage
