import OnePage.Analysis.Resolved

/-!
# Nodes in their trees

A node of a tree is reached from the root along a trail, which holds the labels passed on the way
down, each with the subtrees to the left of the way. So a trail tells which nodes come before its
end, and how many they are is the number of the node.
-/

namespace OnePage

variable {α : Type}

/-- The labels on the way down from the root, each with the subtrees to the left of the way. -/
abbrev Trail (α : Type) := List (α × Forest α)

/-- The labels of the nodes that come before the end of a trail. -/
def Trail.before : Trail α → List α
  | [] => []
  | (a, left) :: trail => a :: (Forest.labels left ++ Trail.before trail)

/-- The number of the node at the end of a trail. -/
def Trail.number (trail : Trail α) : Nat := (Trail.before trail).length

/-- The tree has another one in it, at the end of a trail. -/
inductive Tree.Occurs : Tree α → Trail α → Tree α → Prop where
  | here {t : Tree α} : Tree.Occurs t [] t
  | inside {a : α} {left right : Forest α} {child t : Tree α} {trail : Trail α} :
      Tree.Occurs child trail t →
      Tree.Occurs (.node a (left ++ child :: right)) ((a, left) :: trail) t

/-- Before the end of a trail come the nodes before the end of its first part, then those of the
rest. -/
theorem Trail.before_append (outer inner : Trail α) :
    Trail.before (outer ++ inner) = Trail.before outer ++ Trail.before inner := by
  induction outer with
  | nil => rfl
  | cons level outer ih => simp [Trail.before, ih]

/-- The trees in a tree are the tree itself and those in its children. -/
theorem Tree.occurs_node_iff {a : α} {ts : Forest α} {trail : Trail α} {u : Tree α} :
    (node a ts).Occurs trail u ↔ trail = [] ∧ u = node a ts ∨
      ∃ left child right rest, ts = left ++ child :: right ∧ trail = (a, left) :: rest ∧
        child.Occurs rest u := by
  constructor
  · intro h
    cases h with
    | here => exact .inl ⟨rfl, rfl⟩
    | inside h => exact .inr ⟨_, _, _, _, rfl, rfl, h⟩
  · rintro (⟨rfl, rfl⟩ | ⟨left, child, right, rest, rfl, rfl, h⟩)
    · exact .here
    · exact .inside h

/-- In a leaf only the leaf itself occurs. -/
theorem Tree.occurs_leaf_iff {a : α} {trail : Trail α} {u : Tree α} :
    (leaf a).Occurs trail u ↔ trail = [] ∧ u = leaf a := by
  rw [leaf, occurs_node_iff]
  simp

/-- In a node with one child occur the node and what occurs in the child. -/
theorem Tree.occurs_single_iff {a : α} {child : Tree α} {trail : Trail α} {u : Tree α} :
    (node a [child]).Occurs trail u ↔ trail = [] ∧ u = node a [child] ∨
      ∃ rest, trail = (a, []) :: rest ∧ child.Occurs rest u := by
  rw [occurs_node_iff]
  apply or_congr_right
  constructor
  · rintro ⟨left, child, right, rest, hchildren, rfl, h⟩
    obtain ⟨rfl, rfl, rfl⟩ : left = [] ∧ _ ∧ right = [] := by
      simpa [List.singleton_eq_append_iff] using hchildren
    exact ⟨rest, rfl, h⟩
  · rintro ⟨rest, rfl, h⟩
    exact ⟨[], child, [], rest, rfl, rfl, h⟩

/-- In a node with two children occur the node and what occurs in either child. -/
theorem Tree.occurs_pair_iff {a : α} {first second : Tree α} {trail : Trail α} {u : Tree α} :
    (node a [first, second]).Occurs trail u ↔ trail = [] ∧ u = node a [first, second] ∨
      (∃ rest, trail = (a, []) :: rest ∧ first.Occurs rest u) ∨
      ∃ rest, trail = (a, [first]) :: rest ∧ second.Occurs rest u := by
  rw [occurs_node_iff]
  apply or_congr_right
  constructor
  · rintro ⟨left, child, right, rest, hchildren, rfl, h⟩
    rcases left with _ | ⟨x, _ | ⟨y, left⟩⟩
    · cases hchildren
      exact .inl ⟨rest, rfl, h⟩
    · cases hchildren
      exact .inr ⟨rest, rfl, h⟩
    · simp at hchildren
  · rintro (⟨rest, rfl, h⟩ | ⟨rest, rfl, h⟩)
    · exact ⟨[], first, [second], rest, rfl, rfl, h⟩
    · exact ⟨[first], second, [], rest, rfl, rfl, h⟩

mutual

private theorem Tree.map_label_subtrees : ∀ t : Tree α, t.subtrees.map Tree.label = t.labels
  | .node a ts => congrArg (a :: ·) (Forest.map_label_subtrees ts)

/-- The subtrees of a forest have its labels, in order. -/
theorem Forest.map_label_subtrees : ∀ ts : Forest α,
    (Forest.subtrees ts).map Tree.label = Forest.labels ts
  | [] => rfl
  | t :: ts => by
    rw [Forest.subtrees, Forest.labels, List.map_append, Tree.map_label_subtrees t,
      Forest.map_label_subtrees ts]

end

private theorem Forest.subtrees_append (xs ys : Forest α) :
    Forest.subtrees (xs ++ ys) = Forest.subtrees xs ++ Forest.subtrees ys := by
  induction xs with
  | nil => rfl
  | cons x xs ih => simp [Forest.subtrees, ih]

/-- The subtrees of a forest are those of its trees. -/
theorem Forest.mem_subtrees {ts : Forest α} {u : Tree α} :
    u ∈ Forest.subtrees ts ↔ ∃ t ∈ ts, u ∈ t.subtrees := by
  induction ts with
  | nil => simp [Forest.subtrees]
  | cons t ts ih => simp [Forest.subtrees, ih]

/-- A property of all trees in a tree is one of the tree and of all trees in its children. -/
theorem Tree.forall_mem_subtrees {P : Tree α → Prop} {a : α} {ts : Forest α} :
    (∀ u ∈ (node a ts).subtrees, P u) ↔ P (node a ts) ∧ ∀ t ∈ ts, ∀ u ∈ t.subtrees, P u := by
  rw [Tree.subtrees, List.forall_mem_cons]
  refine and_congr_right fun _ ↦ ⟨fun h t ht u hu ↦ ?_, fun h u hu ↦ ?_⟩
  · exact h u (Forest.mem_subtrees.mpr ⟨t, ht, hu⟩)
  · obtain ⟨t, ht, hu⟩ := Forest.mem_subtrees.mp hu
    exact h t ht u hu

/-- What holds of a leaf holds of all its subtrees. -/
theorem Tree.forall_mem_subtrees_leaf {P : Tree α → Prop} {a : α}
    (h : P (leaf a)) : ∀ u ∈ (leaf a).subtrees, P u :=
  forall_mem_subtrees.mpr ⟨h, nofun⟩

/-- What holds of a node and of all subtrees of its two children holds of all its subtrees. -/
theorem Tree.forall_mem_subtrees_pair {P : Tree α → Prop} {a : α}
    {left right : Tree α} (h : P (node a [left, right])) (hleft : ∀ u ∈ left.subtrees, P u)
    (hright : ∀ u ∈ right.subtrees, P u) : ∀ u ∈ (node a [left, right]).subtrees, P u :=
  forall_mem_subtrees.mpr
    ⟨h, List.forall_mem_cons.mpr ⟨hleft, List.forall_mem_singleton.mpr hright⟩⟩

/-- A tree in another one is among its subtrees, after as many as the trail says. -/
theorem Tree.Occurs.subtrees {t u : Tree α} {trail : Trail α} (h : t.Occurs trail u) :
    ∃ front back, t.subtrees = front ++ u :: back ∧ front.map Tree.label = trail.before := by
  induction h with
  | @here t =>
    cases t with
    | node a ts => exact ⟨[], Forest.subtrees ts, rfl, rfl⟩
  | @inside a left right child u trail _ ih =>
    obtain ⟨front, back, hchild, hfront⟩ := ih
    refine ⟨.node a (left ++ child :: right) :: (Forest.subtrees left ++ front),
      back ++ Forest.subtrees right, ?_, ?_⟩
    · simp [Tree.subtrees, Forest.subtrees_append, Forest.subtrees, hchild]
    · simp [Trail.before, Forest.map_label_subtrees, hfront, Tree.label]

mutual

/-- Every subtree is at the end of a trail. -/
theorem Tree.exists_occurs : ∀ (t : Tree α) {front back : List (Tree α)} {u : Tree α},
    t.subtrees = front ++ u :: back →
      ∃ trail, t.Occurs trail u ∧ Trail.before trail = front.map Tree.label
  | .node a ts, front, back, u, h => by
    rw [Tree.subtrees] at h
    cases front with
    | nil =>
      obtain ⟨rfl, -⟩ := List.cons.inj h
      exact ⟨[], .here, rfl⟩
    | cons first front =>
      obtain ⟨rfl, hts⟩ := List.cons.inj h
      obtain ⟨left, child, right, trail, rfl, hu, hbefore⟩ := Forest.exists_occurs ts hts
      exact ⟨(a, left) :: trail, .inside hu, congrArg (a :: ·) hbefore⟩

private theorem Forest.exists_occurs : ∀ (ts : Forest α) {front back : List (Tree α)} {u : Tree α},
    Forest.subtrees ts = front ++ u :: back → ∃ left child right trail,
      ts = left ++ child :: right ∧ child.Occurs trail u ∧
        Forest.labels left ++ Trail.before trail = front.map Tree.label
  | [], front, back, u, h => by
    cases front <;> cases h
  | t :: ts, front, back, u, h => by
    rw [Forest.subtrees] at h
    -- The subtree is either in the first tree, before whose end it starts, or in a later one.
    rcases List.append_eq_append_iff.mp h with ⟨later, rfl, hts⟩ | ⟨more, ht, hback⟩
    · obtain ⟨left, child, right, trail, rfl, hu, hbefore⟩ := Forest.exists_occurs ts hts
      refine ⟨t :: left, child, right, trail, rfl, hu, ?_⟩
      rw [Forest.labels, List.append_assoc, hbefore, List.map_append, Tree.map_label_subtrees]
    · cases more with
      | nil =>
        obtain ⟨left, child, right, trail, rfl, hu, hbefore⟩ :=
          Forest.exists_occurs ts (show Forest.subtrees ts = [] ++ u :: back from hback.symm)
        refine ⟨t :: left, child, right, trail, rfl, hu, ?_⟩
        rw [Forest.labels, List.append_assoc, hbefore, ← Tree.map_label_subtrees, ht]
        simp
      | cons first more =>
        obtain ⟨rfl, -⟩ := List.cons.inj hback
        obtain ⟨trail, hu, hbefore⟩ := Tree.exists_occurs t ht
        exact ⟨[], t, ts, trail, rfl, hu, hbefore⟩

end

/-- The label with a number is that of the node with the number. -/
theorem Tree.getElem?_labels {t : Tree α} {i : Nat} {a : α} :
    t.labels[i]? = some a ↔ ∃ trail u, t.Occurs trail u ∧ trail.number = i ∧ u.label = a := by
  rw [← Tree.map_label_subtrees, List.getElem?_map, Option.map_eq_some_iff]
  constructor
  · rintro ⟨u, hu, rfl⟩
    obtain ⟨hi, hget⟩ := List.getElem?_eq_some_iff.mp hu
    have hsplit : t.subtrees = t.subtrees.take i ++ u :: t.subtrees.drop (i + 1) := by
      rw [← hget, List.getElem_cons_drop, List.take_append_drop]
    obtain ⟨trail, hocc, hbefore⟩ := t.exists_occurs hsplit
    refine ⟨trail, u, hocc, ?_, rfl⟩
    rw [Trail.number, hbefore, List.length_map, List.length_take]
    omega
  · rintro ⟨trail, u, hocc, rfl, rfl⟩
    obtain ⟨front, back, hsplit, hfront⟩ := hocc.subtrees
    refine ⟨u, ?_, rfl⟩
    rw [hsplit, Trail.number, ← hfront, List.length_map]
    simp

/-- A node stands for a symbol just if the label at its number has the symbol. -/
theorem Tree.mem_bindings {root : Tree Resolved} {i : Nat} {symbol : SymbolId} :
    (i, symbol) ∈ Forest.bindings [root] ↔
      ∃ trail u, root.Occurs trail u ∧ trail.number = i ∧ u.label.symbol = some symbol := by
  have hlabels : Forest.labels [root] = root.labels := List.append_nil _
  constructor
  · intro h
    obtain ⟨⟨r, j⟩, hr, hsymbol⟩ := List.mem_filterMap.mp h
    obtain ⟨s, hs, heq⟩ := Option.map_eq_some_iff.mp hsymbol
    cases heq
    rw [List.mem_zipIdx_iff_getElem?, hlabels] at hr
    obtain ⟨trail, u, hu, hnumber, rfl⟩ := Tree.getElem?_labels.mp hr
    exact ⟨trail, u, hu, hnumber, hs⟩
  · rintro ⟨trail, u, hu, hnumber, hs⟩
    refine List.mem_filterMap.mpr ⟨(u.label, i), ?_, by simp [hs]⟩
    rw [List.mem_zipIdx_iff_getElem?, hlabels]
    exact Tree.getElem?_labels.mpr ⟨trail, u, hu, hnumber, rfl⟩

end OnePage
