import OnePage.Proofs.Arena

/-!
# Creation order is preorder

The cursor of a builder only ever leaves nodes that are complete, so the number a node is created
with is its place in preorder. A walk from the root with an explicit stack passes the numbers one
after the other; the nodes it does not reach are those of the trees begun after the first, and
their numbers come after all others.
-/

namespace OnePage

variable {α : Type}

/-! ### Part of a table -/

namespace Nodes

/-- The part is found among the nodes from a number on. -/
def Holds (nodes : Nodes α) (n : Nat) (part : Nodes α) : Prop := part <+: nodes.drop n

variable {nodes : Nodes α} {n : Nat}

/-- Nodes are found among themselves from zero on. -/
theorem holds_self (nodes : Nodes α) : nodes.Holds 0 nodes := List.prefix_refl nodes

/-- Two parts are found one after the other if they are found together. -/
theorem Holds.append {xs ys : Nodes α} (h : nodes.Holds n (xs ++ ys)) :
    nodes.Holds n xs ∧ nodes.Holds (n + xs.length) ys := by
  obtain ⟨back, hback⟩ := h
  refine ⟨⟨ys ++ back, by rw [← hback, List.append_assoc]⟩, back, ?_⟩
  rw [← List.drop_drop, ← hback, List.append_assoc, List.drop_left]

/-- The first node of a part is found where the part is, and the others after it. -/
theorem Holds.cons {e : Entry α} {part : Nodes α} (h : nodes.Holds n (e :: part)) :
    nodes[n]? = some e ∧ nodes.Holds (n + 1) part := by
  have hsplit : nodes.Holds n ([e] ++ part) := h
  obtain ⟨back, hback⟩ := h
  refine ⟨?_, hsplit.append.2⟩
  rw [← Nat.add_zero n, ← List.getElem?_drop, ← hback]
  rfl

end Nodes

/-! ### Walking down and going up -/

section Table

variable {nodes : Nodes α}

mutual

/-- A walk over a tree passes its numbers in order. -/
theorem Tree.visits : ∀ (t : Tree α) (parent : Option Nat) (n : Nat),
    nodes.Holds n (t.entries parent n) → Visits nodes.children [n] (List.range' n t.size)
  | .node a ts, parent, n, h => by
    obtain ⟨hentry, hbelow⟩ := h.cons
    have hchildren : nodes.children n ++ [] = Forest.numbers (n + 1) ts := by
      simp [Nodes.children, hentry]
    rw [Tree.size, List.range'_succ]
    apply Visits.visit
    rw [hchildren]
    exact Forest.visits ts (some n) (n + 1) hbelow

/-- A walk over a forest passes its numbers in order. -/
theorem Forest.visits : ∀ (ts : Forest α) (parent : Option Nat) (n : Nat),
    nodes.Holds n (Forest.entries parent n ts) →
      Visits nodes.children (Forest.numbers n ts) (List.range' n (Forest.size ts))
  | [], _, _, _ => .done
  | t :: ts, parent, n, h => by
    obtain ⟨hfirst, hrest⟩ := h.append
    rw [Tree.length_entries] at hrest
    rw [Forest.size, ← List.range'_append_1]
    exact (Tree.visits t parent n hfirst).append (Forest.visits ts parent (n + t.size) hrest)

end

mutual

/-- Going up from a node of a tree leads to the root of the tree, and from there on as from it. -/
theorem Tree.ascends : ∀ (t : Tree α) (parent : Option Nat) (n : Nat) (chain : List Nat),
    nodes.Holds n (t.entries parent n) →
      (∀ i, nodes.parent i = parent → Ascends nodes.parent i chain) →
      ∀ i, n ≤ i → i < n + t.size →
        ∃ inner, Ascends nodes.parent i (inner ++ chain) ∧ inner.getLastD i = n
  | .node a ts, parent, n, chain, h, hchain, i, hle, hlt => by
    obtain ⟨hentry, hbelow⟩ := h.cons
    have hroot : Ascends nodes.parent n chain := hchain n (by simp [Nodes.parent, hentry])
    by_cases hi : i = n
    · subst hi
      exact ⟨[], hroot, rfl⟩
    · rw [Tree.size] at hlt
      obtain ⟨inner, hinner, _⟩ := Forest.ascends ts (some n) (n + 1) (n :: chain) hbelow
        (fun j hj ↦ .up hj hroot) i (by omega) (by omega)
      exact ⟨inner ++ [n], by rwa [List.append_assoc], List.getLastD_concat ..⟩

/-- Going up from a node of a forest leads to the root of its tree, which is none of those before
the forest. -/
theorem Forest.ascends : ∀ (ts : Forest α) (parent : Option Nat) (n : Nat) (chain : List Nat),
    nodes.Holds n (Forest.entries parent n ts) →
      (∀ i, nodes.parent i = parent → Ascends nodes.parent i chain) →
      ∀ i, n ≤ i → i < n + Forest.size ts →
        ∃ inner, Ascends nodes.parent i (inner ++ chain) ∧ n ≤ inner.getLastD i
  | [], _, n, _, _, _, i, hle, hlt => absurd hle (Nat.not_le.mpr hlt)
  | t :: ts, parent, n, chain, h, hchain, i, hle, hlt => by
    obtain ⟨hfirst, hrest⟩ := h.append
    rw [Tree.length_entries] at hrest
    rw [Forest.size] at hlt
    by_cases hi : i < n + t.size
    · obtain ⟨inner, hinner, htop⟩ := Tree.ascends t parent n chain hfirst hchain i hle hi
      exact ⟨inner, hinner, Nat.le_of_eq htop.symm⟩
    · obtain ⟨inner, hinner, htop⟩ := Forest.ascends ts parent (n + t.size) chain hrest hchain i
        (by omega) (by omega)
      exact ⟨inner, hinner, by omega⟩

end

end Table

/-! ### The main tree -/

namespace Forest

variable {ts : Forest α}

private theorem mainTable_begins (ts : Forest α) : mainTable ts <+: table ts := by
  refine ⟨Forest.entries none (0 + Forest.size (ts.take 1)) (ts.drop 1), ?_⟩
  rw [mainTable, table, ← Forest.entries_append, List.take_append_drop, table]

/-- The leaves are the nodes of the main tree without children. -/
theorem leaves_eq (ts : Forest α) :
    leaves ts = (preorder ts).filter fun i ↦ (Nodes.children (table ts) i).isEmpty := by
  have hnumbers : List.range (mainTable ts).length = (mainTable ts).zipIdx.map Prod.snd := by
    rw [List.range_eq_range', ← List.zipIdx_map_snd]
  rw [leaves, preorder, hnumbers, List.filter_map]
  congr 1
  apply List.filter_congr
  intro entry hentry
  obtain ⟨back, hback⟩ := mainTable_begins ts
  have hlookup := List.mem_zipIdx_iff_getElem?.mp hentry
  have hlt := (List.getElem?_eq_some_iff.mp hlookup).1
  simp [Nodes.children, ← hback, List.getElem?_append_left hlt, hlookup]

/-- The nodes of the first tree of a forest have the numbers below its size. -/
theorem preorder_cons (t : Tree α) (ts : Forest α) : preorder (t :: ts) = List.range t.size := by
  rw [preorder, mainTable, table, Forest.length_entries]
  simp [Forest.size]

private theorem head?_preorder (ts : Forest α) :
    (preorder ts).head? = if (table ts).isEmpty then none else some 0 := by
  cases ts with
  | nil => rfl
  | cons t ts =>
    cases t with
    | node a below =>
      rw [preorder_cons, Tree.size, List.range_succ_eq_map]
      rfl

/-- From the root a walk passes the numbers of the main tree in order. -/
theorem visits_preorder (ts : Forest α) :
    Visits (Nodes.children (table ts)) (preorder ts).head?.toList (preorder ts) := by
  rw [head?_preorder]
  cases ts with
  | nil => exact .done
  | cons t ts =>
    rw [preorder_cons, List.range_eq_range']
    have hvisits := Tree.visits t none 0 (Nodes.holds_self (table (t :: ts))).append.1
    cases t with
    | node a below => exact hvisits

/-- Going up from a node ends at the first node just if it is in the main tree. -/
theorem ascends_table {i : Nat} (h : i < (table ts).length) :
    ∃ chain, Ascends (Nodes.parent (table ts)) i chain ∧
      ((preorder ts).length ≤ i ↔ chain.getLastD i ≠ 0) := by
  have htop : ∀ j, Nodes.parent (table ts) j = none → Ascends (Nodes.parent (table ts)) j [] :=
    fun j ↦ .top
  cases ts with
  | nil => cases h
  | cons t ts =>
    obtain ⟨hfirst, hrest⟩ := (Nodes.holds_self (table (t :: ts))).append
    rw [Tree.length_entries, Nat.zero_add] at hrest
    rw [table, Forest.length_entries, Forest.size] at h
    rw [preorder_cons, List.length_range]
    by_cases hi : i < t.size
    · obtain ⟨chain, hchain, hlast⟩ := Tree.ascends t none 0 [] hfirst htop i (by omega) (by omega)
      rw [List.append_nil] at hchain
      exact ⟨chain, hchain, by omega⟩
    · obtain ⟨chain, hchain, hlast⟩ := Forest.ascends ts none t.size [] hrest htop i (by omega)
        (by omega)
      have hsize : 0 < t.size := by
        cases t
        exact Nat.succ_pos _
      rw [List.append_nil] at hchain
      exact ⟨chain, hchain, by omega⟩

end Forest

/-- The nodes of a builder are those of an arena, and their numbers are their places in preorder. -/
structure Builder.Numbered (b : Builder α) (a : Arena α) : Prop where
  mirrors : b.Mirrors a
  sound : a.Sound
  size : b.size = a.nodes.length
  root : (Forest.preorder b.forest).head? = a.root
  /-- A walk from the root passes the numbers below the size of its tree in order. -/
  walk : ∀ order, Visits a.nodes.children a.root.toList order ↔ order = Forest.preorder b.forest
  preorder : ∃ count ≤ a.nodes.length, Forest.preorder b.forest = List.range count ∧
    ∀ i < a.nodes.length, ∃ chain, Ascends a.nodes.parent i chain ∧
      (count ≤ i ↔ a.root ≠ some (chain.getLastD i))
  leaves : Forest.leaves b.forest =
    (Forest.preorder b.forest).filter fun i ↦ (a.nodes.children i).isEmpty

/-- After any steps the numbers of a builder are those of an arena that took the steps, and creation
order is preorder. -/
theorem after_numbered (steps : List (BuildStep α)) :
    (Builder.after steps).Numbered (Arena.after steps) := by
  obtain ⟨hmirrors, hsound⟩ := after_mirrors steps
  have hroot : (Forest.preorder (Builder.after steps).forest).head? = (Arena.after steps).root := by
    rw [Forest.head?_preorder, hmirrors.nodes, hsound.root]
  constructor
  · exact hmirrors
  · exact hsound
  · rw [← Builder.length_table, hmirrors.nodes]
  · exact hroot
  · have hvisits := Forest.visits_preorder (Builder.after steps).forest
    rw [hmirrors.nodes, hroot] at hvisits
    exact fun order ↦ ⟨fun h ↦ h.unique hvisits, fun h ↦ h ▸ hvisits⟩
  · refine ⟨(Forest.preorder (Builder.after steps).forest).length, ?_, ?_, fun i hi ↦ ?_⟩
    · rw [← hmirrors.nodes, Forest.preorder, List.length_range]
      exact (Forest.mainTable_begins _).length_le
    · rw [Forest.preorder, List.length_range]
    · rw [← hmirrors.nodes] at hi ⊢
      obtain ⟨chain, hchain, htop⟩ := Forest.ascends_table hi
      refine ⟨chain, hchain, htop.trans (not_congr ?_)⟩
      have hsome : (Arena.after steps).root = some 0 := by
        rw [← hroot, Forest.head?_preorder, if_neg]
        rw [List.isEmpty_iff_length_eq_zero]
        omega
      rw [hsome, Option.some.injEq, eq_comm]
  · rw [Forest.leaves_eq, hmirrors.nodes]

end OnePage
