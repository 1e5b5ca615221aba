import OnePage.Proofs.Occurrence
import OnePage.Proofs.Procedures

/-!
# How deep the procedures go

Every procedure but those of lists reads a token or leaves an error. So each call can be given a
weight that is more than the weights of the calls made in it: while there is no error, three for
each token that is left and a rank for the procedure, and a small rank of its own after an error.
What a procedure does is followed through three stages, by whether it has read something or has
failed since it was called. A procedure that is called again within itself has fewer tokens left, or
has failed and then does not call itself. As many frames as the weight says are enough for a call,
so a bound on the depth that is linear in the number of tokens left is always enough.
-/

namespace OnePage

/-! ### Stages of a call -/

/-- How far a call has come. -/
inductive Stage where
  /-- Nothing was read since it started. -/
  | still
  /-- Something was read. -/
  | ahead
  /-- There is an error. -/
  | failed
  deriving DecidableEq

/-- A descent is at a stage of a call that started at another one. -/
def Stage.At (start now : Descent) : Stage → Prop
  | still => now.error = none ∧ now.tokens = start.tokens ∧ now.index = start.index
  | ahead => now.error = none ∧ now.tokens = start.tokens ∧ start.index < now.index ∧
      now.index ≤ now.tokens.length
  | failed => now.error.isSome = true

namespace Stage

variable {start d e : Descent} {s : Stage}

private theorem At.live (h : s.At start d) (hs : s ≠ failed) : d.error = none := by
  cases s with
  | still | ahead => exact h.1
  | failed => exact absurd rfl hs

private theorem At.of_same (h : s.At start d) (herror : e.error = d.error)
    (htokens : e.tokens = d.tokens) (hindex : e.index = d.index) : s.At start e := by
  cases s with
  | still | ahead | failed => simpa only [At, herror, htokens, hindex] using h

private theorem At.trans_still (h : s.At start d) (hs : s ≠ failed) (k : still.At d e) :
    s.At start e :=
  h.of_same (k.1.trans (h.live hs).symm) k.2.1 k.2.2

private theorem At.trans_ahead (h : s.At start d) (hs : s ≠ failed) (k : ahead.At d e) :
    ahead.At start e := by
  obtain ⟨hnone, htokens, hindex, hlength⟩ := k
  cases s with
  | still => exact ⟨hnone, htokens.trans h.2.1, h.2.2 ▸ hindex, hlength⟩
  | ahead => exact ⟨hnone, htokens.trans h.2.1, Nat.lt_trans h.2.2.1 hindex, hlength⟩
  | failed => exact absurd rfl hs

private theorem At.enter (h : s.At start d) (production : Production) :
    s.At start (d.enter production) := by
  refine h.of_same ?_ ?_ ?_ <;> unfold Descent.enter Descent.unlessFailed <;> split <;> rfl

private theorem At.leave (h : s.At start d) : s.At start d.leave := by
  refine h.of_same ?_ ?_ ?_ <;> unfold Descent.leave Descent.unlessFailed <;> split <;> rfl

private theorem At.left_eq (h : still.At start d) : d.left = start.left := by
  rw [Descent.left, h.2.1, h.2.2, Descent.left]

private theorem At.left_lt (h : ahead.At start d) : d.left.length < start.left.length := by
  obtain ⟨_, htokens, hindex, hlength⟩ := h
  rw [Descent.left, Descent.left, List.length_drop, List.length_drop, ← htokens]
  omega

end Stage

namespace Descent

variable {d : Descent}

/-- What is expected and does not come is an error. -/
theorem failed_unexpected (expected : String) (d : Descent) :
    Stage.failed.At d (d.unexpected expected) := by
  unfold unexpected unlessFailed
  split
  · next h => exact h
  · rfl

/-- A token that is asked for is read, or there is an error. -/
theorem ahead_or_failed_accept (kind : Kind) (d : Descent) (h : d.error = none) :
    Stage.ahead.At d (d.accept kind) ∨ Stage.failed.At d (d.accept kind) := by
  rw [accept, unlessFailed_of_none h]
  split
  · next t ht =>
    split
    · exact .inl ⟨h, rfl, Nat.lt_succ_self _, (List.getElem?_eq_some_iff.mp ht).1⟩
    · exact .inr (failed_unexpected ..)
  · exact .inr (failed_unexpected ..)

private theorem accept_of_failed (kind : Kind) (h : d.error.isSome = true) : d.accept kind = d :=
  unlessFailed_of_failed h

private theorem acceptWhile_of_failed (kind : Kind) (n : Nat) (h : d.error.isSome = true) :
    d.acceptWhile kind n = d := by
  cases n with
  | zero => rfl
  | succ n =>
    rw [acceptWhile, peekKind_of_failed h]
    rfl

/-- A token of the kind that comes next is read. -/
theorem ahead_accept {kind : Kind} (h : d.peekKind = some kind) :
    Stage.ahead.At d (d.accept kind) := by
  cases herror : d.error with
  | some e =>
    rw [peekKind_of_failed (by rw [herror]; rfl)] at h
    cases h
  | none =>
    rw [peekKind, herror] at h
    obtain ⟨t, ht, hkind⟩ := Option.map_eq_some_iff.mp h
    rw [accept, unlessFailed_of_none herror, ht]
    dsimp only
    rw [if_pos hkind]
    exact ⟨herror, rfl, Nat.lt_succ_self _, (List.getElem?_eq_some_iff.mp ht).1⟩

private theorem still_or_ahead_acceptWhile (kind : Kind) (n : Nat) (d : Descent)
    (h : d.error = none) :
    Stage.still.At d (d.acceptWhile kind n) ∨ Stage.ahead.At d (d.acceptWhile kind n) := by
  have hstill : Stage.still.At d d := ⟨h, rfl, rfl⟩
  induction n generalizing d with
  | zero => exact .inl hstill
  | succ n ih =>
    rw [acceptWhile]
    split
    · next hnext =>
      have hread := ahead_accept hnext
      refine .inr ?_
      rcases ih (d.accept kind) hread.1 ⟨hread.1, rfl, rfl⟩ with hmore | hmore
      · exact hread.trans_still (by decide) hmore
      · exact hread.trans_ahead (by decide) hmore
    · exact .inl hstill

/-- The loop over tokens of a kind ends: it goes round at most once for each token left. -/
theorem peekKind_acceptWhile (kind : Kind) (n : Nat) (d : Descent) (h : d.left.length ≤ n) :
    (d.acceptWhile kind n).peekKind ≠ some kind := by
  induction n generalizing d with
  | zero =>
    intro hnext
    have hread := (ahead_accept hnext).left_lt
    rw [acceptWhile] at hread
    omega
  | succ n ih =>
    rw [acceptWhile]
    split
    · next hnext =>
      have hread := (ahead_accept hnext).left_lt
      exact ih (d.accept kind) (by omega)
    · next hnext => exact hnext

end Descent

/-! ### What a routine may call -/

/-- The procedures that may end where they started. -/
def Procedure.MayStay (p : Procedure) : Prop := p = statementList ∨ p = charList

/-- The procedures that a routine calls are allowed at the stage where it calls them, and the
property holds of every stage that it may end at. -/
def Routine.Leads (allowed : Stage → Procedure → Prop) :
    Routine → Stage → (Stage → Prop) → Prop
  | nothing, s, post => post s
  | token _, s, post => post .failed ∧ (s ≠ .failed → post .ahead)
  | tokensOf _, s, post => post s ∧ (s ≠ .failed → post .ahead)
  | unexpected _, _, post => post .failed
  | andThen first second, s, post => first.Leads allowed s fun mid ↦ second.Leads allowed mid post
  | branch _ children, s, post => children.Leads allowed s post
  | peek choose, s, post => ∀ next, (s = .failed → next = none) →
      (choose next).Leads allowed s post
  | call p, s, post => allowed s p ∧ post .failed ∧
      (s ≠ .failed → post .ahead ∧ (p.MayStay → post s))

private theorem Routine.leads_ifNext {allowed : Stage → Procedure → Prop} {kind : Kind}
    {yes no : Routine}
    {s : Stage} {post : Stage → Prop} : (ifNext kind yes no).Leads allowed s post ↔
      (s ≠ .failed → yes.Leads allowed s post) ∧ no.Leads allowed s post := by
  constructor
  · intro h
    have hyes := h (some kind)
    have hno := h none fun _ ↦ rfl
    dsimp only at hyes hno
    rw [if_pos rfl] at hyes
    rw [if_neg (by simp)] at hno
    exact ⟨fun hs ↦ hyes fun hfailed ↦ absurd hfailed hs, hno⟩
  · intro h next hnext
    dsimp only
    split
    · next hkind =>
      refine h.1 fun hfailed ↦ ?_
      rw [hnext hfailed] at hkind
      cases hkind
    · exact h.2

/-- What the end of a call is like: an error stays, and unless there is one something was read. -/
def Procedure.Ends (p : Procedure) (d e : Descent) : Prop :=
  (d.error.isSome = true → Stage.failed.At d e) ∧
    (d.error = none → Stage.failed.At d e ∨ Stage.ahead.At d e ∨ p.MayStay ∧ Stage.still.At d e)

/-- A routine has a result if the calls it may make have results, and it ends at a stage that it
leads to. -/
theorem Routine.Leads.perform {allowed : Stage → Procedure → Prop} {start : Descent}
    {onCall : Procedure → Descent → Option (Tree Visit × Descent)} {P : Tree Visit → Prop}
    (hcall : ∀ s q d, allowed s q → Stage.At start d s →
      ∃ t e, onCall q d = some (t, e) ∧ q.Ends d e ∧ P t)
    {r : Routine} {s : Stage} {post : Stage → Prop} (h : r.Leads allowed s post) {d : Descent}
    (hs : s.At start d) :
    ∃ calls e last, r.perform onCall d = some (calls, e) ∧ Stage.At start e last ∧ post last ∧
      ∀ t ∈ calls, P t := by
  induction r generalizing s post d with
  | nothing => exact ⟨[], d, s, rfl, hs, h, List.forall_mem_nil P⟩
  | unexpected expected =>
    exact ⟨[], _, .failed, rfl, d.failed_unexpected expected, h, List.forall_mem_nil P⟩
  | token kind =>
    by_cases hfailed : s = .failed
    · subst hfailed
      refine ⟨[], _, .failed, rfl, ?_, h.1, List.forall_mem_nil P⟩
      rwa [Descent.accept_of_failed kind hs]
    · rcases d.ahead_or_failed_accept kind (hs.live hfailed) with hread | hread
      · exact ⟨[], _, .ahead, rfl, hs.trans_ahead hfailed hread, h.2 hfailed,
          List.forall_mem_nil P⟩
      · exact ⟨[], _, .failed, rfl, hread, h.1, List.forall_mem_nil P⟩
  | tokensOf kind =>
    have hends := d.peekKind_acceptWhile kind d.left.length (Nat.le_refl _)
    have hresult : (tokensOf kind).perform onCall d =
        some ([], d.acceptWhile kind d.left.length) := if_neg hends
    by_cases hfailed : s = .failed
    · subst hfailed
      refine ⟨[], _, .failed, hresult, ?_, h.1, List.forall_mem_nil P⟩
      rwa [Descent.acceptWhile_of_failed kind _ hs]
    · rcases d.still_or_ahead_acceptWhile kind d.left.length (hs.live hfailed) with hread | hread
      · exact ⟨[], _, s, hresult, hs.trans_still hfailed hread, h.1, List.forall_mem_nil P⟩
      · exact ⟨[], _, .ahead, hresult, hs.trans_ahead hfailed hread, h.2 hfailed,
          List.forall_mem_nil P⟩
  | andThen first second hfirst hsecond =>
    obtain ⟨front, mid, between, hfront, hmid, hnext, hbefore⟩ := hfirst h hs
    obtain ⟨back, e, last, hback, he, hpost, hafter⟩ := hsecond hnext hmid
    refine ⟨front ++ back, e, last, ?_, he, hpost, List.forall_mem_append.mpr ⟨hbefore, hafter⟩⟩
    rw [Routine.perform, hfront, Option.bind_some, hback]
    rfl
  | branch production children ih =>
    obtain ⟨calls, e, last, hbelow, he, hpost, hcalls⟩ := ih h (hs.enter production)
    refine ⟨calls, e.leave, last, ?_, he.leave, hpost, hcalls⟩
    rw [Routine.perform, hbelow]
    rfl
  | peek choose ih =>
    -- After an error no token is seen, so only one way to go on has to be followed.
    refine ih d.peekKind (h d.peekKind fun hfailed ↦ ?_) hs
    subst hfailed
    exact Descent.peekKind_of_failed hs
  | call p =>
    obtain ⟨hallowed, hfail, hread⟩ := h
    obtain ⟨t, e, hresult, hends, hP⟩ := hcall s p d hallowed hs
    have hperform : (call p).perform onCall d = some ([t], e) := by
      rw [Routine.perform, hresult]
      rfl
    have hcalls : ∀ u ∈ [t], P u := List.forall_mem_singleton.mpr hP
    by_cases hfailed : s = .failed
    · subst hfailed
      exact ⟨[t], e, .failed, hperform, hends.1 hs, hfail, hcalls⟩
    · rcases hends.2 (hs.live hfailed) with he | he | ⟨hstay, he⟩
      · exact ⟨[t], e, .failed, hperform, he, hfail, hcalls⟩
      · exact ⟨[t], e, .ahead, hperform, hs.trans_ahead hfailed he, (hread hfailed).1, hcalls⟩
      · exact ⟨[t], e, s, hperform, hs.trans_still hfailed he, (hread hfailed).2 hstay, hcalls⟩

/-! ### Ranks -/

namespace Procedure

/-- Before it reads anything a procedure calls procedures of a lower rank only, and those it calls
later are less than three ranks above it. -/
def rank : Procedure → Nat
  | terminal _ _ | charList => 0
  | name | intExpr | stringExpr | boolExpr | printStatement => 1
  | block | varDecl | assignmentStatement | whileStatement | ifStatement | expr => 2
  | statement | program => 3
  | statementList => 4

/-- After an error a procedure calls procedures of a lower rank only. -/
def idleRank : Procedure → Nat
  | terminal _ _ | charList | expr | statement | statementList => 0
  | name | intExpr | stringExpr | boolExpr | block | printStatement => 1
  | varDecl | assignmentStatement | whileStatement | ifStatement | program => 2

/-- What a procedure may call if there was no error when it was called. -/
def Allows (p : Procedure) : Stage → Procedure → Prop
  | .still, q => q.rank < p.rank
  | .ahead, q => q.rank < p.rank + 3
  | .failed, q => q.idleRank < p.rank

/-- What a procedure may call if there was an error when it was called. -/
def AllowsIdle (p : Procedure) : Stage → Procedure → Prop
  | .failed, q => q.idleRank < p.idleRank
  | _, _ => False

/-- Every procedure keeps to the ranks, and reads something unless it fails or may stay. -/
theorem leads_body (p : Procedure) :
    p.body.Leads p.Allows .still fun last ↦ last = .still → p.MayStay := by
  cases p with
  | statementList =>
    intro next _
    dsimp only
    split <;> simp [Routine.Leads, Routine.all, Allows, MayStay, rank, idleRank]
  | statement | expr =>
    intro next _
    cases next with
    | none => simp [Routine.Leads]
    | some kind => cases kind <;> simp [Routine.Leads, Allows, MayStay, rank]
  | _ =>
    simp [body, Routine.Leads, Routine.all, Routine.leads_ifNext, Allows, MayStay, rank, idleRank]

/-- After an error it keeps to the other ranks. -/
theorem leads_body_idle (p : Procedure) :
    p.body.Leads p.AllowsIdle .failed fun last ↦ last = .failed := by
  cases p <;>
    simp [body, Routine.Leads, Routine.all, Routine.leads_ifNext, AllowsIdle, MayStay, idleRank]

/-! ### Weights -/

/-- The weight of a call. -/
def weight (p : Procedure) (d : Descent) : Nat :=
  if d.error.isSome then p.idleRank else 3 * d.left.length + p.rank

private theorem weight_of_none (p : Procedure) {d : Descent} (h : d.error = none) :
    p.weight d = 3 * d.left.length + p.rank := by
  rw [weight, h]
  rfl

private theorem weight_of_failed (p : Procedure) {d : Descent} (h : d.error.isSome = true) :
    p.weight d = p.idleRank := if_pos h

/-- What a procedure may call is lighter. -/
theorem Allows.weight_lt {p q : Procedure} {s : Stage} {start d : Descent} (h : p.Allows s q)
    (hstart : start.error = none) (hs : s.At start d) : q.weight d < p.weight start := by
  rw [p.weight_of_none hstart]
  cases s with
  | still =>
    rw [q.weight_of_none hs.1, hs.left_eq]
    exact Nat.add_lt_add_left h _
  | ahead =>
    have hleft := hs.left_lt
    have hrank : q.rank < p.rank + 3 := h
    rw [q.weight_of_none hs.1]
    omega
  | failed =>
    rw [q.weight_of_failed hs]
    exact Nat.lt_of_lt_of_le h (Nat.le_add_left ..)

private theorem AllowsIdle.weight_lt {p q : Procedure} {s : Stage} {start d : Descent}
    (h : p.AllowsIdle s q) (hstart : start.error.isSome = true) (hs : s.At start d) :
    q.weight d < p.weight start ∧ d.error.isSome = true := by
  cases s with
  | still | ahead => cases h
  | failed =>
    rw [p.weight_of_failed hstart, q.weight_of_failed hs]
    exact ⟨h, hs⟩

end Procedure

/-- The weight of the call that was made. -/
def Visit.weight (v : Visit) : Nat := v.procedure.weight v.entry

/-- A call is lighter than another one in which it is made, and has failed if that has. -/
structure Visit.Within (inner outer : Visit) : Prop where
  weight_lt : inner.weight < outer.weight
  failed : outer.entry.error.isSome = true → inner.entry.error.isSome = true

private theorem Visit.Within.trans {a b c : Visit} (h : a.Within b) (k : b.Within c) : a.Within c :=
  ⟨Nat.lt_trans h.weight_lt k.weight_lt, fun hc ↦ h.failed (k.failed hc)⟩

/-- All calls are within those they are made in. -/
def Visit.Nested (t : Tree Visit) : Prop :=
  ∀ u ∈ t.subtrees, ∀ w ∈ Forest.subtrees u.children, w.label.Within u.label

private theorem Tree.mem_subtrees {α : Type} {t u : Tree α} :
    u ∈ t.subtrees ↔ u = t ∨ u ∈ Forest.subtrees t.children := by
  cases t with
  | node a ts => rw [Tree.subtrees, List.mem_cons, Tree.children]

namespace Visit

private theorem nested_node {v : Visit} {calls : Forest Visit}
    (h : ∀ t ∈ calls, Nested t ∧ t.label.Within v) : Nested (.node v calls) := by
  refine Tree.forall_mem_subtrees.mpr ⟨fun w hw ↦ ?_, fun t ht ↦ (h t ht).1⟩
  obtain ⟨t, ht, hwt⟩ := Forest.mem_subtrees.mp hw
  have hwithin := (h t ht).2
  rcases Tree.mem_subtrees.mp hwt with rfl | hbelow
  · exact hwithin
  · exact ((h t ht).1 t (Tree.mem_subtrees.mpr (.inl rfl)) w hbelow).trans hwithin

end Visit

namespace Procedure

/-- A call has a result if those it may make are lighter and have results with a frame less. -/
theorem call_of_leads {p : Procedure} {allowed : Stage → Procedure → Prop} {s : Stage}
    {post : Stage → Prop} {frames : Nat} {d : Descent} (h : p.body.Leads allowed s post)
    (hs : s.At d d)
    (hallowed : ∀ s q e, allowed s q → Stage.At d e s →
      q.weight e < p.weight d ∧ (d.error.isSome = true → e.error.isSome = true))
    (hcalls : ∀ q e, q.weight e < p.weight d → ∃ t e', q.call frames e = some (t, e') ∧
      q.Ends e e' ∧ Visit.Nested t ∧ t.label = { procedure := q, entry := e, exit := e' }) :
    ∃ t e last, p.call (frames + 1) d = some (t, e) ∧ Stage.At d e last ∧ post last ∧
      Visit.Nested t ∧ t.label = { procedure := p, entry := d, exit := e } := by
  have hmade (s : Stage) (q : Procedure) (e : Descent) (hq : allowed s q) (he : s.At d e) :
      ∃ t e', q.call frames e = some (t, e') ∧ q.Ends e e' ∧ Visit.Nested t ∧
        t.label.weight < p.weight d ∧
        (d.error.isSome = true → t.label.entry.error.isSome = true) := by
    have hlighter := hallowed s q e hq he
    obtain ⟨t, e', hresult, hends, hnested, hlabel⟩ := hcalls q e hlighter.1
    refine ⟨t, e', hresult, hends, hnested, ?_⟩
    rw [hlabel]
    exact hlighter
  obtain ⟨calls, e, last, hperform, hlast, hpost, hnested⟩ := h.perform hmade hs
  have hbelow : Visit.Nested (.node { procedure := p, entry := d, exit := e } calls) :=
    Visit.nested_node fun t ht ↦ ⟨(hnested t ht).1, (hnested t ht).2.1, (hnested t ht).2.2⟩
  refine ⟨_, e, last, ?_, hlast, hpost, hbelow, rfl⟩
  rw [call, hperform]
  rfl

/-- A call that has more frames than its weight has a result. -/
theorem exists_call {frames : Nat} {p : Procedure} {d : Descent} (h : p.weight d < frames) :
    ∃ t e, p.call frames d = some (t, e) ∧ p.Ends d e ∧ Visit.Nested t ∧
      t.label = { procedure := p, entry := d, exit := e } := by
  induction frames generalizing p d with
  | zero => exact absurd h (Nat.not_lt_zero _)
  | succ frames ih =>
    -- What is called is lighter, so a frame less is enough for it.
    have hcalls (q : Procedure) (e : Descent) (hlt : q.weight e < p.weight d) :=
      ih (Nat.lt_of_lt_of_le hlt (Nat.le_of_lt_succ h))
    cases herror : d.error with
    | none =>
      have hlive : ¬d.error.isSome = true := by simp [herror]
      obtain ⟨t, e, last, hcall, hlast, hpost, hnested⟩ := call_of_leads (d := d) p.leads_body
        ⟨herror, rfl, rfl⟩ (fun s q e hq he ↦ ⟨hq.weight_lt herror he, fun hd ↦ absurd hd hlive⟩)
        hcalls
      refine ⟨t, e, hcall, ⟨fun hd ↦ absurd hd hlive, fun _ ↦ ?_⟩, hnested⟩
      cases last with
      | failed => exact .inl hlast
      | ahead => exact .inr (.inl hlast)
      | still => exact .inr (.inr ⟨hpost rfl, hlast⟩)
    | some error =>
      have hfailed : d.error.isSome = true := by rw [herror]; rfl
      obtain ⟨t, e, last, hcall, hlast, rfl, hnested⟩ := call_of_leads (d := d) p.leads_body_idle
        hfailed (fun s q e hq he ↦ (hq.weight_lt hfailed he).imp_right fun h _ ↦ h) hcalls
      exact ⟨t, e, hcall, ⟨fun _ ↦ hlast, fun hd ↦ by rw [hd] at herror; cases herror⟩, hnested⟩

/-- The frames of a call are bounded by the number of tokens left. -/
theorem weight_lt (p : Procedure) (d : Descent) : p.weight d < 3 * d.left.length + 5 := by
  have hrank : p.rank ≤ 4 := by cases p <;> simp [rank]
  have hidle : p.idleRank ≤ 2 := by cases p <;> simp [idleRank]
  unfold weight
  split <;> omega

end Procedure

mutual

private theorem Tree.mem_subtrees_trans {α : Type} : ∀ {t u w : Tree α}, u ∈ t.subtrees →
    w ∈ u.subtrees → w ∈ t.subtrees
  | .node a ts, u, w, hu, hw => by
    rcases List.mem_cons.mp hu with rfl | hbelow
    · exact hw
    · exact List.mem_cons_of_mem _ (Forest.mem_subtrees_trans hbelow hw)

private theorem Forest.mem_subtrees_trans {α : Type} : ∀ {ts : Forest α} {u w : Tree α},
    u ∈ Forest.subtrees ts → w ∈ u.subtrees → w ∈ Forest.subtrees ts
  | t :: ts, u, w, hu, hw => by
    rcases List.mem_append.mp hu with hfirst | hrest
    · exact List.mem_append_left _ (Tree.mem_subtrees_trans hfirst hw)
    · exact List.mem_append_right _ (Forest.mem_subtrees_trans hrest hw)

end

/-- A call of the procedure of a call in which it is made has fewer tokens left than that call, or
there is an error and the procedure is not called again. -/
def Visit.Reenters (outer inner : Tree Visit) : Prop :=
  inner.label.entry.error = none ∧
      inner.label.entry.left.length < outer.label.entry.left.length ∨
    inner.label.entry.error.isSome = true ∧
      ∀ w ∈ Forest.subtrees inner.children, w.label.procedure ≠ inner.label.procedure

private theorem Visit.Nested.reenters {t u w : Tree Visit} (h : Visit.Nested t)
    (hu : u ∈ t.subtrees)
    (hw : w ∈ Forest.subtrees u.children) (hsame : w.label.procedure = u.label.procedure) :
    Visit.Reenters u w := by
  have hwithin := h u hu w hw
  cases herror : w.label.entry.error with
  | none =>
    have houter : u.label.entry.error = none := by
      cases hu : u.label.entry.error with
      | none => rfl
      | some e =>
        have hfailed := hwithin.failed (by rw [hu]; rfl)
        rw [herror] at hfailed
        cases hfailed
    -- The ranks are the same, so the weights differ by the tokens left.
    have hlt := hwithin.weight_lt
    rw [Visit.weight, Visit.weight, Procedure.weight_of_none _ herror,
      Procedure.weight_of_none _ houter, hsame] at hlt
    exact .inl ⟨herror, by omega⟩
  | some e =>
    have hfailed : w.label.entry.error.isSome = true := by rw [herror]; rfl
    refine .inr ⟨hfailed, fun x hx hsame ↦ ?_⟩
    have hmem : w ∈ t.subtrees := Tree.mem_subtrees_trans hu (Tree.mem_subtrees.mpr (.inr hw))
    have hinner := h w hmem x hx
    have hlt := hinner.weight_lt
    rw [Visit.weight, Visit.weight, Procedure.weight_of_failed _ (hinner.failed hfailed),
      Procedure.weight_of_failed _ hfailed, hsame] at hlt
    exact absurd hlt (Nat.lt_irrefl _)

/-- From every descent each procedure has a result with a number of frames that is linear in the
number of tokens left. It ends with an error or has read something, except that a list may be empty.
A procedure that is called again within itself has fewer tokens left, or there is an error and it
does not call itself. The parsers of that depth, and the parser of programs, read what the
procedures read. -/
theorem recursion_bounded (p : Procedure) (d : Descent) :
    ∃ t e, t.label = { procedure := p, entry := d, exit := e } ∧
      (∀ frames, 3 * d.left.length + 5 ≤ frames → p.call frames d = some (t, e)) ∧
      (p ≠ .statementList → p ≠ .charList →
        e.error.isSome = true ∨ d.index < e.index ∧ e.left.length < d.left.length) ∧
      (∀ u ∈ t.subtrees, ∀ w ∈ Forest.subtrees u.children,
        w.label.procedure = u.label.procedure → Visit.Reenters u w) ∧
      (d.error.isSome = true → e = d) ∧
      (d.error = none → (∀ depth, 3 * d.left.length + 5 ≤ depth →
        d.ReadsTo (p.parser depth d.left) e) ∧
        (p = .program → d.ReadsTo (Derivation.program d.left) e)) := by
  obtain ⟨t, e, hcall, hends, hnested, hlabel⟩ := p.exists_call (Nat.lt_succ_self (p.weight d))
  have hframes := p.weight_lt d
  refine ⟨t, e, hlabel, fun frames h ↦ ?_, fun hlist hchars ↦ ?_,
    fun u hu w hw ↦ hnested.reenters hu hw, fun hfailed ↦ ?_, fun hlive ↦ ⟨fun depth h ↦ ?_, ?_⟩⟩
  · exact Procedure.call_mono (by omega) hcall
  · cases herror : d.error with
    | some error => exact .inl (hends.1 (by rw [herror]; rfl))
    | none =>
      rcases hends.2 herror with hfailed | hahead | ⟨hstay, _⟩
      · exact .inl hfailed
      · exact .inr ⟨hahead.2.2.1, hahead.left_lt⟩
      · exact absurd hstay (not_or.mpr ⟨hlist, hchars⟩)
  · have hrun := Procedure.run_plan_of_call (Nat.le_refl _) hcall
    rw [Plan.run_of_failed _ hfailed] at hrun
    exact hrun.symm
  · have hrun : (p.plan depth).run d = e := Procedure.run_plan_of_call (by omega) hcall
    have hreads := Plan.readsTo_run (p.plan depth) hlive
    rwa [Procedure.parser_plan, hrun] at hreads
  · rintro rfl
    have hdepth : (Procedure.weight .program d) + 1 ≤ Derivation.depthFor d.left := by
      rw [Procedure.weight_of_none _ hlive, Procedure.rank, Derivation.depthFor]
      omega
    have hrun : d.program = e := Procedure.run_plan_of_call hdepth hcall
    rw [← hrun]
    exact Descent.readsTo_program hlive

end OnePage
