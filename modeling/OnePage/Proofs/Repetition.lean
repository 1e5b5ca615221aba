import OnePage.Proofs.Descent
import OnePage.Proofs.Diagnosis

/-!
# Programs one after the other

A descent can be asked for a program again and again. It reads as many programs as it is asked for
exactly if the tokens start with so many sentences of the grammar. It then has built the tree of
each sentence as if the sentence stood alone, the first of them first, and is below no node. Where a
program cannot be read the error stays, and asking for more programs changes nothing at all.
-/

namespace OnePage

/-! ### Descents and sessions -/

namespace Session

variable {s : Session} {failure : ParseFailure}

private theorem program_of_failed (h : s.failure = some failure) : s.program = s := by
  rw [program, h]

private theorem program_of_error (h : s.failure = none)
    (hprogram : Derivation.program s.rest = .error failure) :
    s.program = { s with failure := some failure } := by
  rw [program, h]
  dsimp only
  rw [hprogram]

private theorem program_of_ok {trees : Forest Node} {rest : List Token} (h : s.failure = none)
    (hprogram : Derivation.program s.rest = .ok (trees, rest)) :
    s.program = { s with rest, programs := s.programs ++ trees } := by
  rw [program, h]
  dsimp only
  rw [hprogram]

private theorem programsOf_of_failed (h : s.failure = some failure) (n : Nat) :
    programsOf n s = s := by
  induction n with
  | zero => rfl
  | succ n ih => rw [programsOf, program_of_failed h, ih]

end Session

namespace Descent

open Session

/-- Read one more program. -/
def program (d : Descent) : Descent := (Plan.programTo (Derivation.depthFor d.left)).run d

/-- Read the given number of programs. -/
def programs : Nat → Descent → Descent
  | 0, d => d
  | n + 1, d => programs n d.program

/-- The descent through some tokens when the given number of programs was asked for. -/
def after (tokens : List Token) (count : Nat) : Descent := programs count { tokens }

/-- The forest that was built, or the error, with all that was said. -/
def finish (d : Descent) : Report ParseError (Forest Node) :=
  match d.error with
  | none => { result := .ok d.builder.forest, events := d.events ++ [completed] }
  | some e => { result := .error e, events := d.events }

private theorem finish_of_none {d : Descent} (h : d.error = none) :
    d.finish.result = .ok d.builder.forest := by
  rw [finish, h]

private theorem finish_of_some {d : Descent} {e : ParseError} (h : d.error = some e) :
    d.finish.result = .error e := by
  rw [finish, h]

/-- A descent is where a session is: below no node and with the same programs, or with the same
failure. -/
inductive Tracks (d : Descent) (s : Session) : Prop where
  | live (error : d.error = none) (left : d.left = s.rest)
    (builder : d.builder = { complete := s.programs })
    (events : d.events = (Forest.labels s.programs).map nodeEvent) (failure : s.failure = none)
  | failed {failure : ParseFailure} (error : d.error = some failure.error)
    (events : d.events = (Forest.labels s.programs).map nodeEvent ++
      (failure.made.map nodeEvent ++ [errorEvent failure.error]))
    (failure : s.failure = some failure)

variable {d : Descent} {s : Session}

private theorem program_of_failed (h : d.error.isSome = true) : d.program = d :=
  Plan.run_of_failed _ h

/-- After an error nothing changes, however many programs are asked for. -/
theorem programs_of_failed (h : d.error.isSome = true) (n : Nat) : d.programs n = d := by
  induction n with
  | zero => rfl
  | succ n ih => rw [programs, program_of_failed h, ih]

private theorem programs_add (m n : Nat) (d : Descent) :
    d.programs (m + n) = (d.programs m).programs n := by
  induction m generalizing d with
  | zero => rw [Nat.zero_add]; rfl
  | succ m ih =>
    rw [Nat.succ_add]
    exact ih d.program

/-- Where there is no error, a descent comes to what can be read as a program. -/
theorem readsTo_program (h : d.error = none) :
    d.ReadsTo (Derivation.program d.left) d.program := by
  have hrun := Plan.readsTo_run (Plan.programTo (Derivation.depthFor d.left)) h
  rw [Plan.parser_programTo] at hrun
  exact hrun

/-- A descent stays where a session is. -/
theorem Tracks.program (h : Tracks d s) : Tracks d.program s.program := by
  cases h with
  | live herror hleft hbuilder hevents hfailure =>
    have hreads := readsTo_program herror
    rw [hleft] at hreads
    generalize d.program = e at hreads
    cases hprogram : Derivation.program s.rest with
    | error failure =>
      rw [hprogram] at hreads
      rw [Session.program_of_error hfailure hprogram]
      cases hreads
      exact .failed rfl (by rw [hevents]) rfl
    | ok result =>
      rw [hprogram] at hreads
      rw [Session.program_of_ok hfailure hprogram]
      cases hreads with
      | ok hrest =>
        refine .live herror hrest.symm ?_ ?_ hfailure
        · rw [grown, hbuilder]
          exact Builder.attachAll_closed ..
        · simp [grown, hevents, Forest.labels_append]
  | failed herror hevents hfailure =>
    rw [program_of_failed (by rw [herror]; rfl), Session.program_of_failed hfailure]
    exact .failed herror hevents hfailure

private theorem Tracks.programs (h : Tracks d s) (n : Nat) :
    Tracks (d.programs n) (programsOf n s) := by
  induction n generalizing d s with
  | zero => exact h
  | succ n ih => exact ih h.program

private theorem Tracks.finish_eq (h : Tracks d s) : d.finish = s.report := by
  cases h with
  | live herror _ hbuilder hevents hfailure =>
    simp [finish, report, herror, hfailure, hbuilder, hevents, Builder.forest, Builder.closeSpine]
  | failed herror hevents hfailure =>
    simp [finish, report, herror, hfailure, hevents]

private theorem tracks_after (tokens : List Token) (k : Nat) :
    Tracks (after tokens k) (programsOf k { rest := tokens }) :=
  Tracks.programs (.live rfl rfl rfl rfl rfl) k

end Descent

/-! ### Sentences -/

/-- Each of the lists of tokens is a sentence of the grammar. -/
def Sentences (sentences : List (List Token)) : Prop :=
  ∀ front ∈ sentences, Derives [.part .program] (front.map Token.kind)

private theorem Sentences.exists_phrases {sentences : List (List Token)} (h : Sentences sentences) :
    ∃ ps : List ProgramPhrase, sentences = ps.map ProgramPhrase.tokens := by
  induction sentences with
  | nil => exact ⟨[], rfl⟩
  | cons front sentences ih =>
    obtain ⟨hfront, hothers⟩ := List.forall_mem_cons.mp h
    obtain ⟨p, rfl⟩ := derives_program_iff.mp hfront
    obtain ⟨ps, rfl⟩ := ih hothers
    exact ⟨p :: ps, rfl⟩

private theorem parse_tokens (p : ProgramPhrase) : (parse p.tokens).result = .ok [p.tree] := by
  have hprogram := Derivation.program_complete p []
  rw [List.append_nil] at hprogram
  exact parse_eq_ok.mpr ⟨[], hprogram⟩

namespace Session

/-- Sentences are read one after the other. -/
theorem programsOf_phrases (ps : List ProgramPhrase) (rest : List Token) (front : Forest Node) :
    programsOf ps.length { rest := ps.flatMap ProgramPhrase.tokens ++ rest, programs := front } =
      { rest, programs := front ++ ps.map ProgramPhrase.tree } := by
  induction ps generalizing front with
  | nil => simp [programsOf]
  | cons p ps ih =>
    have hfirst (more : List Token) : program { rest := p.tokens ++ more, programs := front } =
        { rest := more, programs := front ++ [p.tree] } :=
      program_of_ok rfl (Derivation.program_complete p more)
    rw [List.length_cons, programsOf, List.flatMap_cons, List.append_assoc, hfirst, ih]
    simp

/-- What has been read is sentences. -/
theorem exists_sentences {n : Nat} {s : Session} (h : (programsOf n s).failure = none) :
    ∃ sentences, sentences.length = n ∧ Sentences sentences ∧
      s.rest = sentences.flatten ++ (programsOf n s).rest := by
  induction n generalizing s with
  | zero => exact ⟨[], rfl, List.forall_mem_nil _, rfl⟩
  | succ n ih =>
    obtain ⟨sentences, hlength, hsentences, hrest⟩ := ih h
    rw [programsOf] at h ⊢
    cases hfailure : s.failure with
    | some failure =>
      rw [program_of_failed hfailure, programsOf_of_failed hfailure, hfailure] at h
      cases h
    | none =>
      cases hprogram : Derivation.program s.rest with
      | error failure =>
        rw [program_of_error hfailure hprogram, programsOf_of_failed rfl] at h
        cases h
      | ok result =>
        obtain ⟨p, htokens, _⟩ := Derivation.program_sound hprogram
        rw [program_of_ok hfailure hprogram] at hrest ⊢
        refine ⟨p.tokens :: sentences, by rw [List.length_cons, hlength], ?_, ?_⟩
        · exact List.forall_mem_cons.mpr ⟨p.derivation.derives, hsentences⟩
        · rw [htokens, List.flatten_cons, List.append_assoc, ← hrest]

end Session

/-! ### Asking for programs again and again -/

/-- The number of nodes that are made of tokens which can be read as a program. -/
def nodeCount (tokens : List Token) : Nat :=
  Forest.size ((parse tokens).result.toOption.getD [])

/-- The descent has read the sentences: it has the trees that each of them has when it stands alone,
and is below no node. -/
structure Descent.Read (d : Descent) (sentences : List (List Token)) (rest : List Token) :
    Prop where
  error : d.error = none
  left : d.left = rest
  cursor : d.builder.cursor? = none
  trees : d.builder.forest.map (.ok [·]) = sentences.map fun front ↦ (parse front).result
  /-- The first tree is that of the first sentence. Without a sentence there is none. -/
  root : d.builder.forest.head?.map (.ok [·]) =
    sentences.head?.map fun front ↦ (parse front).result
  size : Forest.size d.builder.forest =
    sentences.foldr (fun front size ↦ nodeCount front + size) 0

private theorem Forest.size_phrases (ps : List ProgramPhrase) :
    Forest.size (ps.map ProgramPhrase.tree) =
      (ps.map ProgramPhrase.tokens).foldr (fun front size ↦ nodeCount front + size) 0 := by
  induction ps with
  | nil => rfl
  | cons p ps ih =>
    have hcount : nodeCount p.tokens = p.tree.size := by
      rw [nodeCount, parse_tokens]
      rfl
    rw [List.map_cons, List.map_cons, List.foldr_cons, hcount, ← ih]
    rfl

/-- Sentences that come first are read. -/
theorem Descent.read_after {sentences : List (List Token)} (h : Sentences sentences)
    (rest : List Token) :
    (after (sentences.flatten ++ rest) sentences.length).Read sentences rest := by
  obtain ⟨ps, rfl⟩ := h.exists_phrases
  rw [← List.flatMap_def, List.length_map]
  have htracks := tracks_after (ps.flatMap ProgramPhrase.tokens ++ rest) ps.length
  rw [Session.programsOf_phrases] at htracks
  cases htracks with
  | failed _ _ hfailure => cases hfailure
  | live herror hleft hbuilder _ _ =>
    have hforest : Builder.forest _ = ps.map ProgramPhrase.tree :=
      (congrArg Builder.forest hbuilder).trans (List.append_nil _)
    have htrees : (ps.map ProgramPhrase.tree).map (.ok [·]) =
        (ps.map ProgramPhrase.tokens).map fun front ↦ (parse front).result := by
      simp [parse_tokens]
    refine ⟨herror, hleft, ?_, ?_, ?_, ?_⟩
    · rw [hbuilder]
      rfl
    · rw [hforest, htrees]
    · rw [hforest, ← List.head?_map, htrees, List.head?_map]
    · rw [hforest, Forest.size_phrases]

/-- A session that reports trees has not failed. -/
theorem Session.failure_of_report {s : Session} {trees : Forest Node}
    (h : s.report.result = .ok trees) : s.failure = none := by
  cases hfailure : s.failure with
  | none => rfl
  | some failure =>
    rw [report, hfailure] at h
    cases h

/-- Where a descent first fails, a program cannot be read, for the same reason. -/
theorem Descent.parse_of_fails {d : Descent} {e : ParseError} (h : d.error = none)
    (herror : d.program.error = some e) : (parse d.left).result = .error e := by
  have hreads := readsTo_program h
  cases hprogram : Derivation.program d.left with
  | ok result =>
    rw [hprogram] at hreads
    rw [(hreads.live h).1] at herror
    cases herror
  | error failure =>
    rw [hprogram] at hreads
    have hfailure := hreads.error_eq.symm.trans herror
    exact parse_eq_error.mpr ⟨failure, hprogram, Option.some.inj hfailure⟩

/-- A descent that is asked for programs again and again says and gives what reading so many
programs does. It succeeds exactly if the tokens start with so many sentences, and then has their
trees. If a program is the first that cannot be read, the descent ends with the error of this
program and stays as it is, whatever else it is asked for. -/
theorem programs_read_in_turn (tokens : List Token) :
    (∀ k, (Descent.after tokens k).finish = parsePrograms k tokens) ∧
    (∀ k, (∃ trees, (parsePrograms k tokens).result = .ok trees) ↔
      ∃ sentences rest, sentences.length = k ∧ Sentences sentences ∧
        tokens = sentences.flatten ++ rest) ∧
    (∀ sentences rest, Sentences sentences → tokens = sentences.flatten ++ rest →
      (parsePrograms sentences.length tokens).result =
          .ok (Descent.after tokens sentences.length).builder.forest ∧
        (Descent.after tokens sentences.length).Read sentences rest) ∧
    ∀ j e, (Descent.after tokens j).error = none →
      (Descent.after tokens (j + 1)).error = some e →
        (parse (Descent.after tokens j).left).result = .error e ∧
        ∀ k, j < k → (parsePrograms k tokens).result = .error e ∧
          Descent.after tokens k = Descent.after tokens (j + 1) := by
  have hfinish (k : Nat) : (Descent.after tokens k).finish = parsePrograms k tokens :=
    (Descent.tracks_after tokens k).finish_eq
  have hread (sentences : List (List Token)) (rest : List Token) (h : Sentences sentences)
      (htokens : tokens = sentences.flatten ++ rest) :
      (parsePrograms sentences.length tokens).result =
          .ok (Descent.after tokens sentences.length).builder.forest ∧
        (Descent.after tokens sentences.length).Read sentences rest := by
    have hsentences : (Descent.after tokens sentences.length).Read sentences rest := by
      rw [htokens]
      exact Descent.read_after h rest
    refine ⟨?_, hsentences⟩
    rw [← hfinish]
    exact Descent.finish_of_none hsentences.error
  refine ⟨hfinish, fun k ↦ ⟨?_, ?_⟩, hread, ?_⟩
  · rintro ⟨trees, htrees⟩
    obtain ⟨sentences, hlength, hsentences, hrest⟩ :=
      Session.exists_sentences (Session.failure_of_report htrees)
    exact ⟨sentences, _, hlength, hsentences, hrest⟩
  · rintro ⟨sentences, rest, rfl, h, htokens⟩
    exact ⟨_, (hread sentences rest h htokens).1⟩
  · intro j e hnone herror
    have hsucc : Descent.after tokens (j + 1) = (Descent.after tokens j).program :=
      Descent.programs_add j 1 _
    refine ⟨Descent.parse_of_fails hnone (hsucc ▸ herror), fun k hk ↦ ?_⟩
    obtain ⟨m, rfl⟩ := Nat.exists_eq_add_of_le (Nat.succ_le_of_lt hk)
    have hsame : Descent.after tokens (j + 1 + m) = Descent.after tokens (j + 1) :=
      (Descent.programs_add (j + 1) m _).trans
        (Descent.programs_of_failed (by rw [← Descent.after, herror]; rfl) m)
    refine ⟨?_, hsame⟩
    rw [← hfinish, hsame]
    exact Descent.finish_of_some herror

/-- The smallest program, in the given line. -/
def smallest (line : Nat) : List Token :=
  [⟨"\x7b", .braceOpen, ⟨line, 1⟩⟩, ⟨"\x7d", .braceClose, ⟨line, 2⟩⟩, ⟨"$", .eof, ⟨line, 3⟩⟩]

/-- Two programs are read where the third lacks its first brace, and the error there stays. -/
theorem programs_read_in_turn_twice :
    (Descent.after (smallest 1 ++ smallest 2 ++ (smallest 3).tail) 2).Read [smallest 1, smallest 2]
      (smallest 3).tail ∧
    ∀ k, 2 < k →
      (parsePrograms k (smallest 1 ++ smallest 2 ++ (smallest 3).tail)).result =
        .error (.unexpectedToken Kind.braceOpen.describe "\x7d" ⟨3, 2⟩) ∧
      Descent.after (smallest 1 ++ smallest 2 ++ (smallest 3).tail) k =
        Descent.after (smallest 1 ++ smallest 2 ++ (smallest 3).tail) 3 := by
  have hsentence (line : Nat) : Derives [.part .program] ((smallest line).map Token.kind) :=
    derives_program_iff.mpr ⟨⟨⟨"\x7b", ⟨line, 1⟩⟩, [], ⟨"\x7d", ⟨line, 2⟩⟩, ⟨"$", ⟨line, 3⟩⟩⟩, rfl⟩
  obtain ⟨_, _, hread, hfails⟩ :=
    programs_read_in_turn (smallest 1 ++ smallest 2 ++ (smallest 3).tail)
  have htwo := (hread [smallest 1, smallest 2] (smallest 3).tail
    (List.forall_mem_cons.mpr ⟨hsentence 1, List.forall_mem_singleton.mpr (hsentence 2)⟩) rfl).2
  exact ⟨htwo, (hfails 2 _ htwo.error rfl).2⟩

end OnePage
