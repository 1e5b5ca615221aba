import Mathlib.Data.List.Lex
import OnePage.Proofs.Links
import OnePage.Proofs.Tallying

/-!
# Walking through nested scopes

Scopes are nested when the numbers grow inward: scope zero is outermost, and each other scope is
right inside one with a smaller number. Then going outward from a scope ends at scope zero, and a
walk from there with an explicit stack passes each scope once. The order of the walk is the order of
the paths.
-/

namespace OnePage.ScopeTable

/-- Scope zero is outermost, and each other scope is right inside one with a smaller number. -/
structure Nested (table : ScopeTable) : Prop where
  nonempty : 0 < table.scopes.size
  outermost : table.ancestors 0 = []
  inner : ∀ scope, 0 < scope → scope < table.scopes.size →
    ∃ parent < scope, table.ancestors scope = parent :: table.ancestors parent

variable {table : ScopeTable}

/-! ### Going outward -/

section Outward

variable {scope outer parent : ScopeId}

/-- A scope with a parent comes after it, and is inside it and what is around that. -/
theorem Nested.of_parent (h : Nested table) (hparent : table.parent? scope = some parent) :
    parent < scope ∧ scope < table.scopes.size ∧
      table.ancestors scope = parent :: table.ancestors parent := by
  have hsome : table.ancestors scope ≠ [] := by
    intro hnone
    simp [parent?, hnone] at hparent
  have hlt : scope < table.scopes.size := by
    by_contra hout
    exact hsome (by rw [ancestors, Array.getElem?_eq_none (Nat.le_of_not_lt hout)])
  have hpos : 0 < scope := by
    rcases Nat.eq_zero_or_pos scope with rfl | hpos
    · exact absurd h.outermost hsome
    · exact hpos
  obtain ⟨above, habove, hchain⟩ := h.inner scope hpos hlt
  rw [parent?, hchain, List.head?_cons, Option.some_inj] at hparent
  rw [← hparent]
  exact ⟨habove, hlt, hchain⟩

/-- Every scope but the outermost has a parent. -/
theorem Nested.exists_parent (h : Nested table) (hpos : 0 < scope)
    (hlt : scope < table.scopes.size) : ∃ above, table.parent? scope = some above := by
  obtain ⟨above, -, hchain⟩ := h.inner scope hpos hlt
  exact ⟨above, by rw [parent?, hchain, List.head?_cons]⟩

/-- The outermost scope has no parent. -/
theorem Nested.parent?_zero (h : Nested table) : table.parent? 0 = none := by
  rw [parent?, h.outermost, List.head?_nil]

/-- What holds of the outermost scope, and of each scope right inside one of which it holds, holds
of all. -/
theorem Nested.outward (h : Nested table)
    {motive : (scope : ScopeId) → scope < table.scopes.size → Prop}
    (outermost : motive 0 h.nonempty)
    (inner : ∀ (scope parent : ScopeId) (hlt : scope < table.scopes.size)
      (hup : parent < table.scopes.size), table.parent? scope = some parent → motive parent hup →
        motive scope hlt)
    (scope : ScopeId) (hlt : scope < table.scopes.size) : motive scope hlt := by
  induction scope using Nat.strongRecOn with
  | ind scope ih =>
    rcases Nat.eq_zero_or_pos scope with rfl | hpos
    · exact outermost
    · obtain ⟨above, habove⟩ := h.exists_parent hpos hlt
      have hsmaller := (h.of_parent habove).1
      exact inner scope above hlt (hsmaller.trans hlt) habove (ih above hsmaller _)

/-- A scope is listed once among the scopes inside its parent. -/
theorem Nested.count_children (h : Nested table) (hparent : table.parent? scope = some parent) :
    (table.children parent).count scope = 1 := by
  have hnodup : (table.children parent).Nodup := List.nodup_range.filter _
  have hlt := (h.of_parent hparent).2.1
  rw [hnodup.count, if_pos (by simp [children, hlt, hparent])]

private theorem parent_of_mem_children (hmem : scope ∈ table.children parent) :
    table.parent? scope = some parent := by
  simpa using (List.mem_filter.mp hmem).2

/-- Going outward from a scope passes the scopes around it, and ends. -/
theorem Nested.ascends (h : Nested table) (hlt : scope < table.scopes.size) :
    Ascends table.parent? scope (table.ancestors scope) := by
  induction scope, hlt using h.outward with
  | outermost =>
    rw [h.outermost]
    exact .top h.parent?_zero
  | inner scope above hlt hup habove ih =>
    rw [(h.of_parent habove).2.2]
    exact .up habove ih

/-- The way outward ends at the outermost scope. -/
theorem Nested.getLast?_chain (h : Nested table) (hlt : scope < table.scopes.size) :
    (scope :: table.ancestors scope).getLast? = some 0 := by
  induction scope, hlt using h.outward with
  | outermost =>
    rw [h.outermost]
    rfl
  | inner scope above hlt hup habove ih =>
    rw [(h.of_parent habove).2.2, List.getLast?_cons_cons]
    exact ih

/-- The way outward from a scope goes on as from each scope it passes. -/
theorem Nested.chain_suffix (h : Nested table) (hlt : scope < table.scopes.size)
    (hmem : outer ∈ scope :: table.ancestors scope) :
    (outer :: table.ancestors outer) <:+ (scope :: table.ancestors scope) := by
  induction scope, hlt using h.outward with
  | outermost =>
    rw [h.outermost, List.mem_singleton] at hmem
    subst hmem
    exact List.suffix_refl _
  | inner scope above hlt hup habove ih =>
    rcases List.mem_cons.mp hmem with rfl | houter
    · exact List.suffix_refl _
    · rw [(h.of_parent habove).2.2] at houter ⊢
      exact (ih houter).trans (List.suffix_cons ..)

/-- What is inside a scope is that scope, or inside one of its children. -/
theorem Nested.mem_chain_iff (h : Nested table) (hlt : scope < table.scopes.size) :
    outer ∈ scope :: table.ancestors scope ↔ scope = outer ∨
      ∃ child ∈ table.children outer, child ∈ scope :: table.ancestors scope := by
  constructor
  · intro hmem
    induction scope, hlt using h.outward with
    | outermost =>
      rw [h.outermost, List.mem_singleton] at hmem
      exact .inl hmem.symm
    | inner scope above hlt hup habove ih =>
      rcases List.mem_cons.mp hmem with rfl | houter
      · exact .inl rfl
      · rw [(h.of_parent habove).2.2] at houter ⊢
        right
        rcases ih houter with rfl | ⟨child, hchild, hinside⟩
        · exact ⟨scope, by simp [children, hlt, habove], List.mem_cons_self ..⟩
        · exact ⟨child, hchild, List.mem_cons_of_mem _ hinside⟩
  · rintro (rfl | ⟨child, hchild, hmem⟩)
    · exact List.mem_cons_self ..
    · apply (h.chain_suffix hlt hmem).subset
      rw [(h.of_parent (parent_of_mem_children hchild)).2.2]
      simp

end Outward

/-! ### The order of the paths -/

section Order

variable {scope outer parent : ScopeId}

/-- The path to the first scope comes before the path to the second. -/
def Before (table : ScopeTable) (a b : ScopeId) : Prop :=
  List.Lex (· < ·) (table.path a) (table.path b)

private theorem before_irrefl (table : ScopeTable) (a : ScopeId) : ¬table.Before a a :=
  List.lex_irrefl Nat.lt_irrefl _

private theorem Before.asymm {a b : ScopeId} (h : table.Before a b) : ¬table.Before b a :=
  List.lex_asymm Nat.lt_asymm h

private theorem path_inj {a b : ScopeId} (h : table.path a = table.path b) : a = b :=
  (List.cons.inj (List.reverse_inj.mp h)).1

private theorem eq_of_not_before {a b : ScopeId} (hab : ¬table.Before a b)
    (hba : ¬table.Before b a) :
    a = b :=
  path_inj (List.lex_trichotomous
    (fun _ _ hlt hgt ↦ Nat.le_antisymm (Nat.le_of_not_lt hgt) (Nat.le_of_not_lt hlt)) hba hab)

private theorem Nested.path_eq (h : Nested table) (hparent : table.parent? scope = some parent) :
    table.path scope = table.path parent ++ [scope] := by
  rw [path, (h.of_parent hparent).2.2, List.reverse_cons, path]

private theorem Nested.path_of_inside (h : Nested table) (hlt : scope < table.scopes.size)
    (hmem : outer ∈ scope :: table.ancestors scope) : table.path outer <+: table.path scope :=
  (h.chain_suffix hlt hmem).reverse

/-- A scope comes before what is inside its children. -/
theorem Nested.before_of_inside (h : Nested table) {child : ScopeId}
    (hparent : table.parent? child = some outer) (hlt : scope < table.scopes.size)
    (hmem : child ∈ scope :: table.ancestors scope) : table.Before outer scope := by
  obtain ⟨rest, hrest⟩ := h.path_of_inside hlt hmem
  rw [Before, ← hrest, h.path_eq hparent, ← List.append_nil (table.path outer), List.append_assoc,
    List.append_assoc, List.nil_append]
  exact .append_left _ .nil _

/-- What is inside a scope comes before what is inside a later sibling. -/
theorem Nested.before_of_siblings (h : Nested table) {first second a b : ScopeId}
    (hfirst : table.parent? first = some parent) (hsecond : table.parent? second = some parent)
    (hlt : first < second) (ha : a < table.scopes.size) (hb : b < table.scopes.size)
    (hina : first ∈ a :: table.ancestors a) (hinb : second ∈ b :: table.ancestors b) :
    table.Before a b := by
  obtain ⟨resta, hresta⟩ := h.path_of_inside ha hina
  obtain ⟨restb, hrestb⟩ := h.path_of_inside hb hinb
  rw [Before, ← hresta, ← hrestb, h.path_eq hfirst, h.path_eq hsecond, List.append_assoc,
    List.append_assoc]
  exact .append_left _ (.rel hlt) _

private theorem not_before_trans {a b c : ScopeId} (hba : ¬table.Before b a)
    (hcb : ¬table.Before c b) :
    ¬table.Before c a := by
  intro hca
  by_cases hab : table.Before a b
  · exact hcb (List.lex_trans Nat.lt_trans hca hab)
  · rw [eq_of_not_before hab hba] at hca
    exact hcb hca

private theorem not_lex_path {a b : ScopeId} :
    (!(table.path b).lex (table.path a)) = true ↔ ¬table.Before b a := by
  rw [Bool.not_eq_true', List.lex_eq_false_iff_not_lex]
  simp only [decide_eq_true_eq, Before]

private theorem walk_pairwise (table : ScopeTable) :
    table.walk.Pairwise fun a b ↦ ¬table.Before b a := by
  have htrans : ∀ a b c, (!(table.path b).lex (table.path a)) = true →
      (!(table.path c).lex (table.path b)) = true →
        (!(table.path c).lex (table.path a)) = true := by
    intro a b c hab hbc
    rw [not_lex_path] at hab hbc ⊢
    exact not_before_trans hab hbc
  have htotal : ∀ a b,
      (!(table.path b).lex (table.path a) || !(table.path a).lex (table.path b)) = true := by
    intro a b
    rw [Bool.or_eq_true, not_lex_path, not_lex_path]
    by_cases hba : table.Before b a
    · exact .inr hba.asymm
    · exact .inl hba
  have hsorted := List.pairwise_mergeSort htrans htotal (List.range table.scopes.size)
  exact hsorted.imp not_lex_path.mp

end Order

/-! ### Walking inward -/

/-- A walk from the stack passes all scopes inside those on it, in the order of their paths. -/
structure Tours (table : ScopeTable) (stack order : List ScopeId) : Prop where
  visits : Visits table.children stack order
  ordered : order.Pairwise table.Before
  mem_iff : ∀ scope, scope ∈ order ↔ scope < table.scopes.size ∧
    ∃ outer ∈ stack, outer ∈ scope :: table.ancestors scope

/-- Walks inside each of several siblings make up a walk inside all of them. -/
theorem Nested.tours_siblings (h : Nested table) {parent : ScopeId} {siblings : List ScopeId}
    (hparent : ∀ scope ∈ siblings, table.parent? scope = some parent)
    (hordered : siblings.Pairwise (· < ·))
    (hall : ∀ scope ∈ siblings, ∃ order, table.Tours [scope] order) :
    ∃ order, table.Tours siblings order := by
  induction siblings with
  | nil => exact ⟨[], .done, .nil, by simp⟩
  | cons first rest ih =>
    obtain ⟨hfirst, hrest⟩ := List.pairwise_cons.mp hordered
    obtain ⟨xs, hxs⟩ := hall first (List.mem_cons_self ..)
    obtain ⟨ys, hys⟩ := ih (fun scope hmem ↦ hparent scope (List.mem_cons_of_mem _ hmem)) hrest
      fun scope hmem ↦ hall scope (List.mem_cons_of_mem _ hmem)
    refine ⟨xs ++ ys, hxs.visits.append hys.visits, ?_, ?_⟩
    · refine List.pairwise_append.mpr ⟨hxs.ordered, hys.ordered, ?_⟩
      intro a ha b hb
      obtain ⟨halt, _, hmem, hina⟩ := (hxs.mem_iff a).mp ha
      obtain ⟨hblt, second, hsecond, hinb⟩ := (hys.mem_iff b).mp hb
      rw [List.mem_singleton.mp hmem] at hina
      have hsibling := hparent second (List.mem_cons_of_mem _ hsecond)
      exact h.before_of_siblings (hparent first (List.mem_cons_self ..)) hsibling
        (hfirst second hsecond) halt hblt hina hinb
    · intro scope
      rw [List.mem_append, hxs.mem_iff, hys.mem_iff]
      simp only [List.mem_cons, List.not_mem_nil, or_false, exists_eq_left, exists_eq_or_imp]
      exact and_or_left.symm

/-- A walk from any scope ends and has passed all that is inside it. -/
theorem Nested.tours (h : Nested table) {scope : ScopeId} (hlt : scope < table.scopes.size) :
    ∃ order, table.Tours [scope] order := by
  -- Children have greater numbers, so there are fewer scopes left above theirs.
  induction hleft : table.scopes.size - scope using Nat.strongRecOn generalizing scope with
  | ind left ih =>
    have hparent : ∀ child ∈ table.children scope, table.parent? child = some scope :=
      fun child ↦ parent_of_mem_children
    have hordered : (table.children scope).Pairwise (· < ·) := List.pairwise_lt_range.filter _
    obtain ⟨order, horder⟩ := h.tours_siblings hparent hordered fun child hchild ↦ by
      obtain ⟨hgt, hchildlt, -⟩ := h.of_parent (hparent child hchild)
      exact ih _ (hleft ▸ Nat.sub_lt_sub_left hlt hgt) hchildlt rfl
    refine ⟨scope :: order, ?_, ?_, ?_⟩
    · apply Visits.visit
      rw [List.append_nil]
      exact horder.visits
    · refine List.pairwise_cons.mpr ⟨?_, horder.ordered⟩
      intro inside hinside
      obtain ⟨hilt, child, hchild, hmem⟩ := (horder.mem_iff inside).mp hinside
      exact h.before_of_inside (hparent child hchild) hilt hmem
    · intro inside
      rw [List.mem_cons, horder.mem_iff]
      simp only [List.mem_singleton, exists_eq_left]
      constructor
      · rintro (rfl | ⟨hilt, hmem⟩)
        · exact ⟨hlt, List.mem_cons_self ..⟩
        · exact ⟨hilt, (h.mem_chain_iff hilt).mpr (.inr hmem)⟩
      · rintro ⟨hilt, hmem⟩
        rcases (h.mem_chain_iff hilt).mp hmem with rfl | hchild
        · exact .inl rfl
        · exact .inr ⟨hilt, hchild⟩

/-- The walk from the outermost scope passes the scopes in the order of their paths. -/
theorem Nested.tours_walk (h : Nested table) : table.Tours [0] table.walk := by
  obtain ⟨order, horder⟩ := h.tours h.nonempty
  have hall : ∀ scope, scope ∈ order ↔ scope < table.scopes.size := by
    intro scope
    rw [horder.mem_iff]
    exact ⟨And.left, fun hlt ↦ ⟨hlt, 0, List.mem_singleton_self 0,
      List.mem_of_getLast? (h.getLast?_chain hlt)⟩⟩
  have hnodup : order.Nodup := horder.ordered.imp fun hbefore heq ↦ by
    rw [heq] at hbefore
    exact before_irrefl table _ hbefore
  have hperm : order.Perm table.walk := by
    refine List.Perm.trans ?_ table.walk_perm.symm
    rw [List.perm_ext_iff_of_nodup hnodup List.nodup_range]
    simpa using hall
  have heq : order = table.walk :=
    hperm.eq_of_pairwise (fun a b _ _ hba hab ↦ eq_of_not_before hab hba)
      (horder.ordered.imp Before.asymm) table.walk_pairwise
  rw [← heq]
  exact horder

/-- A walk over the children of scopes visits them in the order of the table, and in no other. -/
theorem Nested.visits_walk (h : Nested table) (order : List ScopeId) :
    Visits table.children [0] order ↔ order = table.walk := by
  constructor
  · intro hvisits
    exact hvisits.unique h.tours_walk.visits
  · rintro rfl
    exact h.tours_walk.visits

/-- In a walk no scope comes before its parent, and siblings are passed in the order in which they
were opened. -/
theorem Nested.walk_ordered (h : Nested table) : table.walk.Pairwise fun a b ↦
    table.parent? a ≠ some b ∧ (table.parent? a = table.parent? b → a < b) := by
  refine List.Pairwise.imp_of_mem ?_ h.tours_walk.ordered
  intro a b ha hb hbefore
  have halt : a < table.scopes.size := List.mem_range.mp (table.walk_perm.subset ha)
  have hblt : b < table.scopes.size := List.mem_range.mp (table.walk_perm.subset hb)
  have hne : a ≠ b := by
    rintro rfl
    exact before_irrefl table a hbefore
  constructor
  · intro hparent
    exact hbefore.asymm (h.before_of_inside hparent halt (List.mem_cons_self ..))
  · intro hsame
    rcases Nat.lt_or_gt_of_ne hne with hlt | hgt
    · exact hlt
    · obtain ⟨parent, hparent⟩ := h.exists_parent (Nat.zero_lt_of_lt hgt) halt
      exact absurd hbefore (Before.asymm (h.before_of_siblings (hsame ▸ hparent) hparent hgt hblt
        halt (List.mem_cons_self ..) (List.mem_cons_self ..)))

end OnePage.ScopeTable
