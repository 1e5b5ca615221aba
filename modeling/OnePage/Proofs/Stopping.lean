import OnePage.Proofs.Spacing

/-!
# Where scanning stops

A reader that goes through a text one character at a time, and only knows whether it is inside
quotes, stops at the first character that cannot stand there or that ends the text. Scanning stops
there too: although it takes reserved words and signs of two characters at once, all it passes over
is what the reader passes over. So scanning fails exactly where the reader meets an obstacle other
than the sentinel, and what comes after that place does not matter.
-/

namespace OnePage

/-! ### The reader -/

/-- What makes a reader stop. -/
inductive Obstacle where
  /-- A `$` outside quotes. -/
  | sentinel
  /-- A `!` outside quotes that is not followed by `=`. -/
  | bang
  /-- A character outside quotes with which nothing starts. -/
  | unknown
  /-- A character inside quotes that is neither a letter, nor a space, nor a quote. -/
  | invalid
  deriving DecidableEq

namespace Obstacle

/-- Whether a character may stand outside quotes and does not end the text. -/
def isPlainChar (c : Char) : Bool :=
  isGap c || Scan.isLetter c || isDecimal c ||
    ['"', '+', '(', ')', '\x7b', '\x7d', '=', '!'].contains c

/-- What a character is to a reader, given the one after it. -/
def at? (quoted : Bool) (c : Char) (next : Option Char) : Option Obstacle :=
  if quoted then if isTextChar c || c = '"' then none else some invalid
  else if c = '$' then some sentinel
  else if c = '!' && next != some '=' then some bang
  else if isPlainChar c then none
  else some unknown

/-- The error of a character that is an obstacle, met at `p`. -/
def error? (p : Position) (c : Char) : Obstacle → Option ScanError
  | sentinel => none
  | bang => some (.unterminatedBang p)
  | unknown => some (.unknownCharacter c p)
  | invalid => some (.invalidStringCharacter c p)

end Obstacle

/-- Where a reader stops: the text before that place, the character there and what it is. -/
structure Stop where
  before : List Char
  char : Char
  obstacle : Obstacle
  deriving DecidableEq

/-- The same stop with one more character before it. -/
def Stop.cons (c : Char) (s : Stop) : Stop := { s with before := c :: s.before }

/-- The first place where a reader stops that starts inside or outside quotes. -/
def firstStop (quoted : Bool) : List Char → Option Stop
  | [] => none
  | c :: rest =>
    match Obstacle.at? quoted c rest.head? with
    | some obstacle => some { before := [], char := c, obstacle }
    | none => (firstStop (quoted != (c == '"')) rest).map (.cons c)

/-- Where there is an obstacle, a reader stops at once. -/
theorem firstStop_of_some {quoted : Bool} {c : Char} {rest : List Char} {obstacle : Obstacle}
    (h : Obstacle.at? quoted c rest.head? = some obstacle) :
    firstStop quoted (c :: rest) = some { before := [], char := c, obstacle } := by
  rw [firstStop, h]

/-- Where there is no obstacle, a reader stops where it does in the rest. -/
theorem firstStop_of_none {quoted : Bool} {c : Char} {rest : List Char}
    (h : Obstacle.at? quoted c rest.head? = none) :
    firstStop quoted (c :: rest) = (firstStop (quoted != (c == '"')) rest).map (.cons c) := by
  rw [firstStop, h]

private theorem at?_of_firstStop {quoted : Bool} {c d : Char} {rest : List Char}
    {obstacle : Obstacle}
    (h : firstStop quoted (c :: rest) = some { before := [], char := d, obstacle }) :
    Obstacle.at? quoted c rest.head? = some obstacle := by
  cases hat : Obstacle.at? quoted c rest.head? with
  | some found =>
    rw [firstStop_of_some hat] at h
    cases h
    rfl
  | none =>
    rw [firstStop_of_none hat] at h
    obtain ⟨stop, _, hcons⟩ := Option.map_eq_some_iff.mp h
    cases hcons

private theorem firstStop_of_cons {quoted : Bool} {b c d : Char} {before rest : List Char}
    {obstacle : Obstacle}
    (h : firstStop quoted (c :: rest) = some { before := b :: before, char := d, obstacle }) :
    Obstacle.at? quoted c rest.head? = none ∧
      firstStop (quoted != (c == '"')) rest = some { before, char := d, obstacle } := by
  cases hat : Obstacle.at? quoted c rest.head? with
  | some found =>
    rw [firstStop_of_some hat] at h
    cases h
  | none =>
    rw [firstStop_of_none hat] at h
    obtain ⟨stop, hstop, hcons⟩ := Option.map_eq_some_iff.mp h
    cases hcons
    exact ⟨rfl, hstop⟩

/-- A reader stops at a place of the text, and at an obstacle. -/
theorem exists_of_firstStop {quoted : Bool} {text : List Char} {stop : Stop}
    (h : firstStop quoted text = some stop) :
    ∃ rest later, text = stop.before ++ stop.char :: rest ∧
      Obstacle.at? later stop.char rest.head? = some stop.obstacle := by
  induction text generalizing quoted stop with
  | nil => cases h
  | cons c rest ih =>
    cases hat : Obstacle.at? quoted c rest.head? with
    | some obstacle =>
      rw [firstStop_of_some hat] at h
      cases h
      exact ⟨rest, quoted, rfl, hat⟩
    | none =>
      rw [firstStop_of_none hat] at h
      obtain ⟨stop, hstop, rfl⟩ := Option.map_eq_some_iff.mp h
      obtain ⟨back, later, htext, hobstacle⟩ := ih hstop
      exact ⟨back, later, congrArg (c :: ·) htext, hobstacle⟩

namespace Obstacle

private theorem error?_eq_none {p : Position} {c : Char} {obstacle : Obstacle} :
    obstacle.error? p c = none ↔ obstacle = sentinel := by
  cases obstacle <;> simp [error?]

private theorem at?_of_letter {c : Char} (h : Scan.isLetter c) (quoted : Bool)
    (next : Option Char) :
    at? quoted c next = none := by
  have hne (d : Char) (hd : Scan.isLetter d = false) : c ≠ d := by
    rintro rfl
    rw [h] at hd
    cases hd
  cases quoted with
  | true => simp [at?, isTextChar, h]
  | false => simp [at?, isPlainChar, h, hne '$' rfl, hne '!' rfl]

/-- No obstacle is a letter. -/
theorem not_isLetter {quoted : Bool} {c : Char} {next : Option Char} {obstacle : Obstacle}
    (h : at? quoted c next = some obstacle) : Scan.isLetter c = false := by
  cases hc : Scan.isLetter c with
  | false => rfl
  | true =>
    rw [at?_of_letter hc] at h
    cases h

/-- The character after an obstacle matters only to a `!` outside quotes. -/
theorem at?_congr {quoted : Bool} {c : Char} {next other : Option Char} {obstacle : Obstacle}
    (hat : at? quoted c next = some obstacle) (h : obstacle = .bang → other = next) :
    at? quoted c other = some obstacle := by
  by_cases hbang : obstacle = .bang
  · rw [h hbang, hat]
  · cases quoted with
    | true => exact hat
    | false =>
      by_cases hc : c = '!'
      · subst hc
        by_cases hnext : next = some '='
        · rw [hnext] at hat
          cases hat
        · have hstop : at? false '!' next = some .bang := by simp [at?, hnext]
          rw [hstop] at hat
          exact absurd (Option.some.inj hat).symm hbang
      · simpa [at?, hc] using hat

end Obstacle

/-! ### What is read -/

namespace Scan

/-- The first `held` characters are none at which a reader stops, and no quotes. -/
def Held (quoted : Bool) (held : Nat) (chars : List Char) : Prop :=
  ∀ c ∈ chars.take held, c ≠ '"' ∧ ∀ next, Obstacle.at? quoted c next = none

/-- Where no characters are held, nothing is asked of the text. -/
theorem held_zero (quoted : Bool) (chars : List Char) : Held quoted 0 chars := by
  simp [Held]

/-- If characters are held, the first of them is no obstacle and no quote, and the others are
held. -/
theorem Held.cons {quoted : Bool} {held : Nat} {c : Char} {rest : List Char}
    (h : Held quoted (held + 1) (c :: rest)) :
    (c ≠ '"' ∧ ∀ next, Obstacle.at? quoted c next = none) ∧ Held quoted held rest :=
  List.forall_mem_cons.mp h

/-- What is read at an obstacle. -/
def obstacleReading (p : Position) (c : Char) : Obstacle → Reading
  | .sentinel => .token [c] .eof false
  | .bang => .fault (.unterminatedBang p)
  | .unknown => .fault (.unknownCharacter c p)
  | .invalid => .fault (.invalidStringCharacter c p)

/-- What reading a character says of it to a reader. A token other than the sentinel has nothing
after its first character at which a reader would stop. -/
inductive ReadsAs (quoted : Bool) (p : Position) (c : Char) (rest : List Char) :
    Reading → Prop where
  | skip : Obstacle.at? quoted c rest.head? = none → c ≠ '"' → ReadsAs quoted p c rest .skip
  | token (cs : List Char) {kind : Kind} : Obstacle.at? quoted c rest.head? = none →
      kind ≠ .eof → Held (quoted != (c == '"')) cs.length rest →
      ReadsAs quoted p c rest (.token (c :: cs) kind (quoted != (c == '"')))
  | stop (obstacle : Obstacle) : Obstacle.at? quoted c rest.head? = some obstacle →
      ReadsAs quoted p c rest (obstacleReading p c obstacle)

/-- A token of one character that is no quote is read as such. -/
theorem ReadsAs.one {quoted : Bool} {p : Position} {c : Char} {rest : List Char} {kind : Kind}
    (h : Obstacle.at? quoted c rest.head? = none) (hc : c ≠ '"') (hkind : kind ≠ .eof) :
    ReadsAs quoted p c rest (.token [c] kind quoted) := by
  have hread : ReadsAs quoted p c rest (.token [c] kind (quoted != (c == '"'))) :=
    .token [] h hkind (held_zero _ rest)
  rwa [beq_false_of_ne hc, Bool.bne_false] at hread

private theorem readsAs_readQuoted (p : Position) (c : Char) (rest : List Char) :
    ReadsAs true p c rest (readQuoted p c) := by
  unfold readQuoted
  split
  · next hc =>
    have htext : isTextChar c = true := hc
    refine .one (by simp [Obstacle.at?, htext]) ?_ (by decide)
    rintro rfl
    cases hc
  · next hc =>
    have htext : isTextChar c = false := Bool.eq_false_iff.mpr hc
    split
    · next hquote =>
      subst hquote
      exact .token [] rfl (by decide) (held_zero _ rest)
    · next hquote =>
      have hat : Obstacle.at? true c rest.head? = some .invalid := by
        simp [Obstacle.at?, htext, hquote]
      exact .stop _ hat

/-- What follows a letter in a reserved word is letters. -/
theorem held_word {c : Char} {rest letters : List Char} {kind : Kind}
    (h : Reserved.word? (c :: rest) = some (letters, kind)) :
    ∃ cs, letters = c :: cs ∧ kind ≠ .eof ∧ Held false cs.length rest := by
  have hwords : ∀ word ∈ Reserved.words, word.2 ≠ .eof ∧ word.1.all isLetter := by decide +kernel
  obtain ⟨heof, hletters⟩ := hwords _ (Reserved.mem_of_follow h)
  obtain ⟨⟨cs, rfl, back, rfl⟩, _⟩ := reads_word h
  refine ⟨cs, rfl, heof, fun d hd ↦ ?_⟩
  rw [List.take_left] at hd
  have hd : isLetter d = true := List.all_eq_true.mp hletters d (List.mem_cons_of_mem c hd)
  exact ⟨(isLetter_ne hd).2, Obstacle.at?_of_letter hd false⟩

/-- An `=` may always follow outside quotes. -/
theorem held_equals {rest : List Char} (h : rest.head? = some '=') : Held false 1 rest := by
  obtain ⟨back, rfl⟩ := List.head?_eq_some_iff.mp h
  intro d hd
  obtain rfl : d = '=' := List.mem_singleton.mp hd
  exact ⟨by decide, fun _ ↦ rfl⟩

private theorem readsAs_readPlain {p : Position} {c : Char} {rest : List Char} {reading : Reading}
    (h : readPlain p c rest = reading) : ReadsAs false p c rest reading := by
  unfold readPlain at h
  rcases ite_eq_iff.mp h with ⟨hgap, rfl⟩ | ⟨hgap, h⟩
  · have hat : Obstacle.at? false c rest.head? = none := by
      simp only [Bool.or_eq_true, decide_eq_true_eq] at hgap
      rcases hgap with ((rfl | rfl) | rfl) | rfl <;> rfl
    exact .skip hat (isGap_ne hgap).2
  rcases ite_eq_iff.mp h with ⟨rfl, rfl⟩ | ⟨hquote, h⟩
  · exact .token [] rfl (by decide) (held_zero _ rest)
  rcases ite_eq_iff.mp h with ⟨hletter, h⟩ | ⟨hletter, h⟩
  · have hat := Obstacle.at?_of_letter hletter false rest.head?
    cases hword : Reserved.word? (c :: rest) with
    | none =>
      rw [hword] at h
      cases h
      exact .one hat hquote (by decide)
    | some word =>
      rw [hword] at h
      cases h
      obtain ⟨cs, hletters, hkind, hheld⟩ := held_word hword
      have hbne : (false != (c == '"')) = false := by
        rw [beq_false_of_ne hquote]
        rfl
      have hread : ReadsAs false p c rest _ := .token cs hat hkind (by rwa [hbne])
      rwa [hbne, ← hletters] at hread
  rcases ite_eq_iff.mp h with ⟨hdigit, rfl⟩ | ⟨hdigit, h⟩
  · have hne (d : Char) (hd : isDecimal d = false) : c ≠ d := by
      rintro rfl
      rw [isDecimal, hdigit] at hd
      cases hd
    refine .one ?_ hquote (by decide)
    simp [Obstacle.at?, Obstacle.isPlainChar, isDecimal, hdigit, hne '$' rfl, hne '!' rfl]
  -- The signs of one character.
  rcases ite_eq_iff.mp h with ⟨rfl, rfl⟩ | ⟨hplus, h⟩
  · exact .one rfl (by decide) (by decide)
  rcases ite_eq_iff.mp h with ⟨rfl, rfl⟩ | ⟨hopen, h⟩
  · exact .one rfl (by decide) (by decide)
  rcases ite_eq_iff.mp h with ⟨rfl, rfl⟩ | ⟨hclose, h⟩
  · exact .one rfl (by decide) (by decide)
  rcases ite_eq_iff.mp h with ⟨rfl, rfl⟩ | ⟨hbrace, h⟩
  · exact .one rfl (by decide) (by decide)
  rcases ite_eq_iff.mp h with ⟨rfl, rfl⟩ | ⟨hbraced, h⟩
  · exact .one rfl (by decide) (by decide)
  rcases ite_eq_iff.mp h with ⟨hc, h⟩ | ⟨hequals, h⟩
  · rcases ite_eq_iff.mp h with ⟨hnext, rfl⟩ | ⟨_, rfl⟩
    · subst hc
      exact .token ['='] rfl (by decide) (held_equals hnext)
    · subst hc
      exact .one rfl (by decide) (by decide)
  rcases ite_eq_iff.mp h with ⟨hc, h⟩ | ⟨hbang, h⟩
  · rcases ite_eq_iff.mp h with ⟨hnext, rfl⟩ | ⟨hnext, rfl⟩
    · subst hc
      have hat : Obstacle.at? false '!' rest.head? = none := by rw [hnext]; rfl
      exact .token ['='] hat (by decide) (held_equals hnext)
    · subst hc
      have hat : Obstacle.at? false '!' rest.head? = some .bang := by simp [Obstacle.at?, hnext]
      exact .stop _ hat
  rcases ite_eq_iff.mp h with ⟨rfl, rfl⟩ | ⟨hsentinel, rfl⟩
  · exact .stop .sentinel rfl
  · have hplain : Obstacle.isPlainChar c = false := by
      simp only [Bool.not_eq_true] at hgap hletter hdigit
      simp [Obstacle.isPlainChar, isGap, isDecimal, hgap, hletter, hdigit, hquote, hplus, hopen,
        hclose, hbrace, hbraced, hequals, hbang]
    have hat : Obstacle.at? false c rest.head? = some .unknown := by
      simp [Obstacle.at?, hsentinel, hbang, hplain]
    exact .stop _ hat

/-- What is read is what a reader would pass over, or the obstacle at which it stops. -/
theorem readsAs_read (quoted : Bool) (p : Position) (c : Char) (rest : List Char) :
    ReadsAs quoted p c rest (read quoted p c rest) := by
  cases quoted with
  | true => exact readsAs_readQuoted p c rest
  | false => exact readsAs_readPlain rfl

private theorem read_of_obstacle {quoted : Bool} {c : Char} {rest : List Char} {obstacle : Obstacle}
    (h : Obstacle.at? quoted c rest.head? = some obstacle) (p : Position) :
    read quoted p c rest = obstacleReading p c obstacle := by
  have hreads := readsAs_read quoted p c rest
  generalize read quoted p c rest = reading at hreads
  cases hreads with
  | skip hat _ | token _ hat _ _ =>
    rw [hat] at h
    cases h
  | stop _ hat =>
    rw [hat] at h
    cases h
    rfl

/-! ### Where a scan fails -/

/-- The error that ended a scan, if one did. -/
def error? (s : Scan) : Option ScanError :=
  match s.ending with
  | .fault e => some e
  | .sentinel _ _ | .exhausted _ => none

private theorem result_eq_error {s : Scan} {e : ScanError} (h : s.error? = some e) :
    s.result = .error e := by
  unfold error? at h
  split at h
  · next hending =>
    cases h
    rw [result, hending]
  · cases h
  · cases h

/-- A scan results in tokens just if it has those and no error. -/
theorem result_eq_ok {s : Scan} {tokens : List Token} :
    s.result = .ok tokens ↔ s.tokens = tokens ∧ s.error? = none := by
  unfold result error?
  cases s.ending with
  | fault e => simp
  | sentinel _ _ | exhausted _ => simp

private theorem exists_result_iff {s : Scan} :
    (∃ tokens, s.result = .ok tokens) ↔ s.error? = none := by
  simp [result_eq_ok]

/-- A scan fails where a reader stops. The first `held` characters belong to a token already read,
and a reader passes over them. -/
theorem error?_ofChars {chars : List Char} {quoted : Bool} {held : Nat} (front : List Char)
    (hheld : Held quoted held chars) :
    (ofChars quoted held (.after front) chars).error? = (firstStop quoted chars).bind fun stop ↦
      stop.obstacle.error? (.after (front ++ stop.before)) stop.char := by
  induction chars generalizing quoted held front with
  | nil => rfl
  | cons c rest ih =>
    -- Where a reader passes over a character, what it meets later is a character further on.
    have hpass (later : Bool) (n : Nat) (hn : Held later n rest) :
        (ofChars later n ((Position.after front).advance c) rest).error? =
          ((firstStop later rest).map (Stop.cons c)).bind fun stop ↦
            stop.obstacle.error? (.after (front ++ stop.before)) stop.char := by
      rw [← Position.after_concat, ih (front ++ [c]) hn, Option.bind_map]
      simp only [Function.comp_def, Stop.cons, List.append_assoc, List.singleton_append]
    cases held with
    | succ n =>
      obtain ⟨⟨hquote, hat⟩, hrest⟩ := hheld.cons
      rw [ofChars, firstStop_of_none (hat _), beq_false_of_ne hquote, Bool.bne_false]
      exact hpass quoted n hrest
    | zero =>
      have hreads := readsAs_read quoted (.after front) c rest
      rw [ofChars]
      generalize read quoted (.after front) c rest = reading at hreads
      cases hreads with
      | skip hat hquote =>
        rw [firstStop_of_none hat, beq_false_of_ne hquote, Bool.bne_false]
        exact hpass quoted 0 (held_zero quoted rest)
      | token cs hat hkind hcs =>
        dsimp only
        rw [if_neg hkind, firstStop_of_none hat]
        exact hpass _ cs.length hcs
      | stop obstacle hat =>
        rw [firstStop_of_some hat, Option.bind_some, List.append_nil]
        cases obstacle with
        | sentinel | bang | unknown | invalid => rfl

/-! ### What comes after does not matter -/

/-- A scan reads one more token as it reads the others. -/
theorem result_cons (t : Token) (s : Scan) : (cons t s).result = s.result.map (t :: ·) := by
  unfold result cons
  cases s.ending with
  | fault _ | sentinel _ _ | exhausted _ => rfl

end Scan

namespace Reserved

/-- A word is found without regard to what comes after a character that is in no candidate. -/
theorem follow_congr {candidates : List (List Char × Kind)} {c : Char}
    (h : ∀ word ∈ candidates, c ∉ word.1) (front rest other : List Char) :
    follow candidates (front ++ c :: rest) = follow candidates (front ++ c :: other) := by
  induction front generalizing candidates with
  | nil =>
    have hnone : candidates.filterMap (after c) = [] := by
      rw [List.filterMap_eq_nil_iff]
      rintro ⟨letters, kind⟩ hword
      cases letters with
      | nil => rfl
      | cons d letters =>
        rw [after, if_neg]
        rintro rfl
        exact h _ hword (List.mem_cons_self ..)
    simp only [List.nil_append, follow, hnone]
    rfl
  | cons d front ih =>
    have hafter : ∀ word ∈ candidates.filterMap (after d), c ∉ word.1 :=
      fun word hword hc ↦ h _ (mem_of_after hword) (List.mem_cons_of_mem d hc)
    simp only [List.cons_append, follow, ih hafter]

/-- No reserved word goes on past a character that is not a letter. -/
theorem word?_congr {c : Char} (h : Scan.isLetter c = false) (front rest other : List Char) :
    word? (front ++ c :: rest) = word? (front ++ c :: other) := by
  have hwords : ∀ word ∈ words, word.1.all Scan.isLetter := by decide +kernel
  refine follow_congr (fun word hword hc ↦ ?_) front rest other
  rw [List.all_eq_true.mp (hwords word hword) c hc] at h
  cases h

end Reserved

namespace Scan

/-- What is read before an obstacle does not depend on what comes after it. -/
theorem read_congr {c : Char} (h : isLetter c = false) (quoted : Bool) (p : Position) (d : Char)
    (front rest other : List Char) :
    read quoted p d (front ++ c :: rest) = read quoted p d (front ++ c :: other) := by
  have hhead : (front ++ c :: rest).head? = (front ++ c :: other).head? := by
    cases front <;> rfl
  have hword := Reserved.word?_congr h (d :: front) rest other
  rw [List.cons_append, List.cons_append] at hword
  simp only [read, readPlain, hhead, hword]

/-- Texts that agree up to an obstacle, and on the character after it if it is a `!` outside quotes,
are read alike. -/
theorem result_congr {front rest other : List Char} {c : Char} {obstacle : Obstacle} {quoted : Bool}
    {held : Nat} (p : Position)
    (hstop : firstStop quoted (front ++ c :: rest) = some { before := front, char := c, obstacle })
    (hheld : Held quoted held (front ++ c :: rest))
    (hnext : obstacle = .bang → other.head? = rest.head?) :
    (ofChars quoted held p (front ++ c :: other)).result =
      (ofChars quoted held p (front ++ c :: rest)).result := by
  have hletter : isLetter c = false := by
    obtain ⟨back, later, _, hobstacle⟩ := exists_of_firstStop hstop
    exact Obstacle.not_isLetter hobstacle
  induction front generalizing quoted held p with
  | nil =>
    have hat := at?_of_firstStop hstop
    have hother := Obstacle.at?_congr hat hnext
    cases held with
    | succ n =>
      rw [hheld.cons.1.2] at hat
      cases hat
    | zero =>
      rw [List.nil_append, List.nil_append, ofChars, ofChars, read_of_obstacle hat,
        read_of_obstacle hother]
      cases obstacle with
      | sentinel | bang | unknown | invalid => rfl
  | cons d front ih =>
    rw [List.cons_append] at hstop
    obtain ⟨hat, hrest⟩ := firstStop_of_cons hstop
    cases held with
    | succ n =>
      obtain ⟨⟨hquote, _⟩, hheld⟩ := hheld.cons
      rw [beq_false_of_ne hquote, Bool.bne_false] at hrest
      exact ih (p.advance d) hrest hheld
    | zero =>
      have hreads := readsAs_read quoted p d (front ++ c :: rest)
      rw [List.cons_append, List.cons_append, ofChars, ofChars,
        read_congr hletter quoted p d front other rest]
      generalize read quoted p d (front ++ c :: rest) = reading at hreads
      cases hreads with
      | skip _ hquote =>
        rw [beq_false_of_ne hquote, Bool.bne_false] at hrest
        exact ih (p.advance d) hrest (held_zero quoted _)
      | token cs _ hkind hcs =>
        dsimp only
        rw [if_neg hkind, if_neg hkind, result_cons, result_cons]
        exact congrArg _ (ih (p.advance d) hrest hcs)
      | stop _ hobstacle =>
        rw [hat] at hobstacle
        cases hobstacle

end Scan

/-- Scanning fails exactly if a reader stops at an obstacle other than the sentinel, with the error
for that obstacle and the place of its character. However it ends, the result is the same for every
text that agrees up to that character, and on the next one if the character is a `!` outside
quotes. -/
theorem scan_stops_at_obstacle (source : String) :
    ((∃ tokens, (Scan.ofSource source).result = .ok tokens) ↔
      ∀ stop, firstStop false source.toList = some stop → stop.obstacle = .sentinel) ∧
    ∀ stop, firstStop false source.toList = some stop →
      (∀ e, stop.obstacle.error? (.after stop.before) stop.char = some e →
        (Scan.ofSource source).result = .error e) ∧
      ∃ rest, source.toList = stop.before ++ stop.char :: rest ∧
        ∀ (other : String) (later : List Char), other.toList = stop.before ++ stop.char :: later →
          (stop.obstacle = .bang → later.head? = rest.head?) →
          (Scan.ofSource other).result = (Scan.ofSource source).result := by
  have herror := Scan.error?_ofChars [] (Scan.held_zero false source.toList)
  change (Scan.ofSource source).error? = _ at herror
  refine ⟨?_, fun stop hstop ↦ ⟨fun e he ↦ ?_, ?_⟩⟩
  · rw [Scan.exists_result_iff, herror, Option.bind_eq_none_iff]
    simp only [Obstacle.error?_eq_none]
  · rw [hstop] at herror
    exact Scan.result_eq_error (herror.trans he)
  · obtain ⟨rest, _, htext, _⟩ := exists_of_firstStop hstop
    refine ⟨rest, htext, fun other later hother hnext ↦ ?_⟩
    rw [Scan.ofSource, Scan.ofSource, hother, htext]
    rw [htext] at hstop
    exact Scan.result_congr .start hstop (Scan.held_zero false _) hnext

/-- A `!` outside quotes ends a scan where it stands, after a keyword that is read in one go and a
text on the second line. -/
theorem scan_stops_at_obstacle_bang :
    firstStop false "while\n\"a\"!#".toList =
      some { before := "while\n\"a\"".toList, char := '!', obstacle := .bang } ∧
    (Scan.ofSource "while\n\"a\"!#").result = .error (.unterminatedBang ⟨2, 4⟩) := by
  have hstop : firstStop false "while\n\"a\"!#".toList =
      some { before := "while\n\"a\"".toList, char := '!', obstacle := .bang } := by
    decide +kernel
  exact ⟨hstop, ((scan_stops_at_obstacle _).2 _ hstop).1 _ (by decide +kernel)⟩

end OnePage
