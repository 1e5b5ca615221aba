import OnePage.Proofs.Spelling

/-!
# Writing programs

A program is written as chunks of text, each a token or a text in its quotes, with blanks between
them and a sentinel at the end. However many blanks there are, and of whatever sort, scanning such a
text gives the tokens of the chunks.
-/

namespace OnePage

/-- A token without its place. -/
def Token.word (t : Token) : String × Kind := (t.lexeme, t.kind)

/-- A piece of source text that has no blanks in it, except inside quotes. -/
inductive Chunk where
  /-- A token. -/
  | word (lexeme : String) (kind : Kind)
  /-- A text in its quotes. -/
  | literal (value : String)

namespace Chunk

/-- The characters of a chunk. -/
def chars : Chunk → List Char
  | word lexeme _ => lexeme.toList
  | literal value => '"' :: (value.toList ++ ['"'])

/-- The tokens of a chunk, without their places. -/
def words : Chunk → List (String × Kind)
  | word lexeme kind => [(lexeme, kind)]
  | literal value =>
    ("\"", .quote) :: (value.toList.map (fun c ↦ (String.ofList [c], .char)) ++ [("\"", .quote)])

/-- The chunk is one that is read as it is meant: a name is one letter, a number one digit, a text
has only letters and spaces, and all else is one of the words or signs of its kind. -/
def Spelled : Chunk → Prop
  | literal value => ∀ c ∈ value.toList, isTextChar c
  | word lexeme kind =>
    match kind with
    | .identifier => ∃ c, lexeme = String.ofList [c] ∧ Scan.isLetter c
    | .digit => ∃ c, lexeme = String.ofList [c] ∧ isDecimal c
    | .typeWord => lexeme = "int" ∨ lexeme = "string" ∨ lexeme = "boolean"
    | .boolVal => lexeme = "true" ∨ lexeme = "false"
    | .boolOp => lexeme = "==" ∨ lexeme = "!="
    | .ifWord => lexeme = "if"
    | .whileWord => lexeme = "while"
    | .printWord => lexeme = "print"
    | .parenOpen => lexeme = "("
    | .parenClose => lexeme = ")"
    | .braceOpen => lexeme = "\x7b"
    | .braceClose => lexeme = "\x7d"
    | .assign => lexeme = "="
    | .intOp => lexeme = "+"
    | .char | .quote | .eof => False

end Chunk

/-- A space, a tab, a carriage return or a line feed. -/
def isGap (c : Char) : Bool := c = '\n' || c = ' ' || c = '\t' || c = '\r'

/-- Whether a word that stands before this character cannot go on. -/
def isBreak (c : Char) : Bool := isGap c || c = '$'

/-- The text has the chunks in order, each with blanks after it, and then a sentinel, before which
there need not be any. What comes after the sentinel may be anything. -/
inductive Written : List Chunk → List Char → Prop where
  | sentinel {after : List Char} : Written [] ('$' :: after)
  | last {chunk : Chunk} {after : List Char} : Written [chunk] (chunk.chars ++ '$' :: after)
  | chunk {chunk : Chunk} {chunks : List Chunk} {b : Char} {gap text : List Char} :
      (∀ c ∈ b :: gap, isGap c) → Written chunks text →
      Written (chunk :: chunks) (chunk.chars ++ b :: (gap ++ text))

/-! ### Scanning what is written -/

namespace Reserved

/-- The letters followed are those with which the text begins. -/
theorem prefix_of_follow {candidates : List (List Char × Kind)} {text letters : List Char}
    {kind : Kind} (h : follow candidates text = some (letters, kind)) : letters <+: text := by
  induction text generalizing candidates letters with
  | nil => cases h
  | cons c rest ih =>
    rw [follow] at h
    dsimp only at h
    split at h
    · cases h
      exact ⟨rest, rfl⟩
    · split at h
      · cases h
      · obtain ⟨⟨more, k⟩, hfollow, heq⟩ := Option.map_eq_some_iff.mp h
        cases heq
        exact List.cons_prefix_cons.mpr ⟨rfl, ih hfollow⟩

/-- A letter before a break begins no reserved word. -/
theorem word?_eq_none {c b : Char} (hb : isBreak b) (rest : List Char) :
    word? (c :: b :: rest) = none := by
  cases h : word? (c :: b :: rest) with
  | none => rfl
  | some found =>
    obtain ⟨letters, kind⟩ := found
    -- Every reserved word has a second letter, which the break would have to be.
    have hwords : ∀ word ∈ words, 1 < word.1.length ∧ word.1.all (!isBreak ·) := by decide +kernel
    obtain ⟨hlength, hletters⟩ := hwords _ (mem_of_follow h)
    obtain ⟨others, hothers⟩ := prefix_of_follow h
    match letters with
    | [] => cases hlength
    | [_] => exact absurd hlength (Nat.lt_irrefl 1)
    | _ :: second :: _ =>
      obtain rfl : second = b := by simp_all
      have hsecond := List.all_eq_true.mp hletters second (by simp)
      rw [hb] at hsecond
      cases hsecond

end Reserved

namespace Scan

/-- Characters that belong to a token already read are passed over. -/
theorem ofChars_held (quoted : Bool) (held rest : List Char) (p : Position) :
    ∃ q, ofChars quoted held.length p (held ++ rest) = ofChars quoted 0 q rest := by
  induction held generalizing p with
  | nil => exact ⟨p, rfl⟩
  | cons c held ih =>
    obtain ⟨q, hq⟩ := ih (p.advance c)
    exact ⟨q, by rw [← hq]; rfl⟩

/-- A gap is skipped, and only the place changes. -/
theorem ofChars_gap {gap : List Char} (hgap : ∀ c ∈ gap, isGap c) (rest : List Char)
    (p : Position) : ∃ q, ofChars false 0 p (gap ++ rest) = ofChars false 0 q rest := by
  induction gap generalizing p with
  | nil => exact ⟨p, rfl⟩
  | cons c gap ih =>
    obtain ⟨hc, hgap⟩ := List.forall_mem_cons.mp hgap
    obtain ⟨q, hq⟩ := ih hgap (p.advance c)
    refine ⟨q, ?_⟩
    rw [← hq, List.cons_append, ofChars]
    have hread : read false p c (gap ++ rest) = .skip := if_pos hc
    rw [hread]

/-- A word before a break is read as it is meant. -/
theorem read_word {lexeme : String} {kind : Kind} (h : (Chunk.word lexeme kind).Spelled) {b : Char}
    (hb : isBreak b) (rest : List Char) (p : Position) :
    ∃ c cs, lexeme.toList = c :: cs ∧ kind ≠ .eof ∧
      read false p c (cs ++ b :: rest) = .token (c :: cs) kind false := by
  cases kind with
  | char | quote | eof => cases h
  | identifier =>
    obtain ⟨c, rfl, hc⟩ := h
    have hne (d : Char) (hd : isLetter d = false) : c ≠ d := by
      rintro rfl
      rw [hc] at hd
      cases hd
    refine ⟨c, [], String.toList_ofList, by decide, ?_⟩
    simp [read, readPlain, hne '\n' rfl, hne ' ' rfl, hne '\t' rfl, hne '\r' rfl, hne '"' rfl, hc,
      Reserved.word?_eq_none hb]
  | digit =>
    obtain ⟨c, rfl, hc⟩ := h
    have hne (d : Char) (hd : isDecimal d = false) : c ≠ d := by
      rintro rfl
      rw [hc] at hd
      cases hd
    have hletter : isLetter c = false := by
      have hle : c ≤ '9' := by simpa using (Bool.and_eq_true_iff.mp hc).2
      rw [isLetter, Bool.and_eq_false_iff]
      refine .inl (decide_eq_false fun ha ↦ ?_)
      exact absurd (Char.le_trans ha hle) (by decide)
    refine ⟨c, [], String.toList_ofList, by decide, ?_⟩
    simp [read, readPlain, hne '\n' rfl, hne ' ' rfl, hne '\t' rfl, hne '\r' rfl, hne '"' rfl,
      hletter, show ('0' ≤ c && c ≤ '9') = true from hc]
  | typeWord =>
    rcases h with rfl | rfl | rfl <;> exact ⟨_, _, rfl, by decide, rfl⟩
  | boolVal =>
    rcases h with rfl | rfl <;> exact ⟨_, _, rfl, by decide, rfl⟩
  | boolOp =>
    rcases h with rfl | rfl <;> exact ⟨_, _, rfl, by decide, rfl⟩
  | assign =>
    cases h
    have hb' : b ≠ '=' := by
      rintro rfl
      cases hb
    refine ⟨_, _, rfl, by decide, ?_⟩
    show (if some b = some '=' then _ else _) = _
    rw [if_neg (by simpa using hb')]
  | ifWord | whileWord | printWord | parenOpen | parenClose | braceOpen | braceClose | intOp =>
    cases h
    exact ⟨_, _, rfl, by decide, rfl⟩

/-- A token that is read comes first, before what is scanned after it. -/
theorem ofChars_token {quoted later : Bool} {p : Position} {c : Char} {cs rest : List Char}
    {kind : Kind} (h : read quoted p c rest = .token (c :: cs) kind later) (hkind : kind ≠ .eof) :
    ofChars quoted 0 p (c :: rest) =
      cons { lexeme := String.ofList (c :: cs), kind, position := p }
        (ofChars later cs.length (p.advance c) rest) := by
  rw [ofChars, h]
  dsimp only
  rw [if_neg hkind]
  rfl

/-- The rest of a text in quotes is scanned up to the closing quote. -/
theorem ofChars_quoted {cs : List Char} (h : ∀ c ∈ cs, isTextChar c) (rest : List Char)
    (p : Position) : ∃ (front : List Token) (q : Position), front.map Token.word =
        cs.map (fun c ↦ (String.ofList [c], Kind.char)) ++ [("\"", Kind.quote)] ∧
      ofChars true 0 p (cs ++ '"' :: rest) = front.foldr cons (ofChars false 0 q rest) := by
  induction cs generalizing p with
  | nil =>
    refine ⟨[{ lexeme := "\"", kind := .quote, position := p }], p.advance '"', rfl, ?_⟩
    exact ofChars_token rfl (by decide)
  | cons c cs ih =>
    obtain ⟨hc, hcs⟩ := List.forall_mem_cons.mp h
    obtain ⟨front, q, hfront, hscan⟩ := ih hcs (p.advance c)
    refine ⟨{ lexeme := String.ofList [c], kind := .char, position := p } :: front, q, ?_, ?_⟩
    · rw [List.map_cons, hfront]
      rfl
    · have hread : read true p c (cs ++ '"' :: rest) = .token [c] .char true := if_pos hc
      rw [List.cons_append, ofChars_token hread (by decide), List.foldr_cons, ← hscan]
      rfl

/-- A chunk before a break is scanned as its tokens. -/
theorem ofChars_chunk {chunk : Chunk} (h : chunk.Spelled) {b : Char} (hb : isBreak b)
    (rest : List Char) (p : Position) : ∃ (front : List Token) (q : Position),
      front.map Token.word = chunk.words ∧
      ofChars false 0 p (chunk.chars ++ b :: rest) =
        front.foldr cons (ofChars false 0 q (b :: rest)) := by
  cases chunk with
  | word lexeme kind =>
    obtain ⟨c, cs, hlexeme, hkind, hread⟩ := read_word h hb rest p
    obtain ⟨q, hq⟩ := ofChars_held false cs (b :: rest) (p.advance c)
    refine ⟨[{ lexeme, kind, position := p }], q, rfl, ?_⟩
    rw [Chunk.chars, hlexeme, List.cons_append, ofChars_token hread hkind, hq, ← hlexeme,
      String.ofList_toList]
    rfl
  | literal value =>
    obtain ⟨front, q, hfront, hscan⟩ := ofChars_quoted h (b :: rest) (p.advance '"')
    refine ⟨{ lexeme := "\"", kind := .quote, position := p } :: front, q, ?_, ?_⟩
    · rw [List.map_cons, hfront]
      rfl
    · rw [Chunk.chars, List.cons_append, List.append_assoc, List.foldr_cons, ← hscan]
      exact ofChars_token rfl (by decide)

/-- Tokens put in front of a scan come before its tokens, and its ending stays. -/
theorem foldr_cons (front : List Token) (s : Scan) :
    front.foldr cons s = { tokens := front ++ s.tokens, ending := s.ending } := by
  induction front with
  | nil => rfl
  | cons t front ih =>
    rw [List.foldr_cons, ih]
    rfl

/-- What is written is scanned, up to the sentinel, as the tokens of its chunks. -/
theorem ofChars_written {chunks : List Chunk} {text : List Char} (h : Written chunks text)
    (spelled : ∀ chunk ∈ chunks, chunk.Spelled) (p : Position) :
    (ofChars false 0 p text).tokens.map Token.word =
        chunks.flatMap Chunk.words ++ [("$", .eof)] ∧
      ∃ rest q, (ofChars false 0 p text).ending = .sentinel rest q := by
  induction h generalizing p with
  | @sentinel after => exact ⟨rfl, after, p.advance '$', rfl⟩
  | @last chunk after =>
    have hbreak : isBreak '$' := rfl
    obtain ⟨front, q, hfront, hscan⟩ :=
      ofChars_chunk (List.forall_mem_singleton.mp spelled) hbreak after p
    rw [hscan, foldr_cons]
    refine ⟨?_, after, q.advance '$', rfl⟩
    rw [List.map_append, hfront, List.flatMap_singleton]
    rfl
  | @chunk chunk chunks b gap text hgap _ ih =>
    obtain ⟨hchunk, hchunks⟩ := List.forall_mem_cons.mp spelled
    have hb : isBreak b := Bool.or_eq_true_iff.mpr (.inl (hgap b (List.mem_cons_self ..)))
    obtain ⟨front, q, hfront, hscan⟩ := ofChars_chunk hchunk hb (gap ++ text) p
    obtain ⟨q', hskip⟩ := ofChars_gap hgap text q
    rw [List.cons_append] at hskip
    obtain ⟨hwords, hending⟩ := ih hchunks q'
    rw [hscan, hskip, foldr_cons]
    refine ⟨?_, hending⟩
    rw [List.map_append, hfront, hwords, List.flatMap_cons, List.append_assoc]

end Scan

end OnePage
