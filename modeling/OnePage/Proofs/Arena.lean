import OnePage.Proofs.Links
import OnePage.Tree.Builder
import OnePage.Tree.Numbering

/-!
# Nodes in the order of their creation

An arena keeps nodes in the order in which they are added, each with links to its parent and to its
children, and the number of the node under the cursor. A builder and an arena that take the same
steps have the same nodes: numbering the forest of the builder gives each node the number it was
created with, and the links the arena has made. The links fit each other at every point.
-/

namespace OnePage

variable {α : Type}

/-! ### Steps of a builder -/

/-- Something done to a builder. -/
inductive BuildStep (α : Type) where
  /-- A node is added, and the cursor moves onto it. -/
  | branch (label : α)
  /-- A node is added. -/
  | leaf (label : α)
  /-- The cursor moves to its parent. -/
  | climb

/-- A builder after one more step. -/
def Builder.take (b : Builder α) : BuildStep α → Builder α
  | .branch label => b.addBranch label
  | .leaf label => b.addLeaf label
  | .climb => b.climb

/-- A builder that has taken the steps in order. -/
def Builder.after (steps : List (BuildStep α)) : Builder α := steps.foldl Builder.take {}

/-! ### Arenas -/

/-- Nodes by their numbers. -/
abbrev Nodes (α : Type) := List (Entry α)

namespace Nodes

/-- The parent of a node. -/
def parent (nodes : Nodes α) (i : Nat) : Option Nat := nodes[i]?.bind Entry.parent

/-- The children of a node. -/
def children (nodes : Nodes α) (i : Nat) : List Nat := (nodes[i]?.map Entry.children).getD []

/-- The label of a node. -/
def label? (nodes : Nodes α) (i : Nat) : Option α := nodes[i]?.map Entry.label

/-- The nodes with another label for one of them. -/
def relabel (i : Nat) (change : α → α) (nodes : Nodes α) : Nodes α :=
  nodes.modify i fun e ↦ { e with label := change e.label }

/-- A node more, as the last child of its parent if it has one. -/
def add (label : α) (parent : Option Nat) (nodes : Nodes α) : Nodes α :=
  let linked := match parent with
    | some p => nodes.modify p fun e ↦ { e with children := e.children ++ [nodes.length] }
    | none => nodes
  linked ++ [{ label, parent, children := [] }]

end Nodes

/-- Nodes under construction. -/
structure Arena (α : Type) where
  nodes : Nodes α := []
  /-- The first node without a parent. -/
  root : Option Nat := none
  /-- The node to which others are added. -/
  cursor : Option Nat := none

namespace Arena

/-- Add a node under the cursor. -/
def attach (label : α) (a : Arena α) : Arena α where
  nodes := a.nodes.add label a.cursor
  root := match a.cursor with
    | some _ => a.root
    | none => a.root.or (some a.nodes.length)
  cursor := a.cursor

/-- An arena after one more step. -/
def take (a : Arena α) : BuildStep α → Arena α
  | .branch label => { a.attach label with cursor := some a.nodes.length }
  | .leaf label => a.attach label
  | .climb => { a with cursor := a.cursor.bind a.nodes.parent }

/-- An arena that has taken the steps in order. -/
def after (steps : List (BuildStep α)) : Arena α := steps.foldl Arena.take {}

end Arena

/-! ### Links that fit each other -/

namespace Nodes

variable {nodes : Nodes α} {label : α} {i p : Nat}

/-- Adding a node makes one node more. -/
theorem length_add (label : α) (parent : Option Nat) (nodes : Nodes α) :
    (nodes.add label parent).length = nodes.length + 1 := by
  cases parent <;> simp [add]

private theorem lt_of_parent (h : nodes.parent i = some p) : i < nodes.length := by
  obtain ⟨e, he, _⟩ := Option.bind_eq_some_iff.mp h
  exact (List.getElem?_eq_some_iff.mp he).1

/-- The new node is as it was given, and no other node changes but for its children. -/
theorem getElem?_add {β : Type} (read : Entry α → β)
    (hread : ∀ e children, read { e with children } = read e) (label : α) (parent : Option Nat)
    (nodes : Nodes α) (i : Nat) : (nodes.add label parent)[i]?.map read =
      if i = nodes.length then some (read { label, parent, children := [] })
      else nodes[i]?.map read := by
  have hlast : ∀ linked : Nodes α, linked.length = nodes.length →
      linked[i]?.map read = nodes[i]?.map read →
      (linked ++ [{ label, parent, children := [] }])[i]?.map read =
        if i = nodes.length then some (read { label, parent, children := [] })
        else nodes[i]?.map read := by
    intro linked hlength hold
    rw [← hlength, ← hold, List.getElem?_append]
    grind
  cases parent with
  | none => exact hlast nodes rfl rfl
  | some p =>
    refine hlast _ (List.length_modify ..) ?_
    rw [List.getElem?_modify]
    cases nodes[i]? with
    | none => rfl
    | some e => by_cases hp : p = i <;> simp [hp, hread]

/-- The new node has the label it was given, and no other gets another one. -/
theorem label?_add (label : α) (parent : Option Nat) (nodes : Nodes α) (i : Nat) :
    (nodes.add label parent).label? i =
      if i = nodes.length then some label else nodes.label? i :=
  getElem?_add Entry.label (fun _ _ ↦ rfl) label parent nodes i

/-- The new node has the parent it was given, and no other gets another one. -/
theorem parent_add (label : α) (parent : Option Nat) (nodes : Nodes α) (i : Nat) :
    (nodes.add label parent).parent i = if i = nodes.length then parent else nodes.parent i := by
  have hjoin (e : Option (Entry α)) : (e.map Entry.parent).join = e.bind Entry.parent := by
    cases e <;> rfl
  have h := congrArg Option.join (getElem?_add Entry.parent (fun _ _ ↦ rfl) label parent nodes i)
  rw [apply_ite Option.join, hjoin, hjoin] at h
  exact h

/-- The new node is the last child of its parent, and no other node gets a child. -/
theorem children_add {parent : Option Nat} (h : ∀ p, parent = some p → p < nodes.length) (i : Nat) :
    (nodes.add label parent).children i =
      nodes.children i ++ if parent = some i then [nodes.length] else [] := by
  have hlast : ∀ linked : Nodes α,
      Nodes.children (linked ++ [{ label, parent, children := [] }]) i = linked.children i := by
    intro linked
    by_cases hlt : i < linked.length
    · rw [Nodes.children, List.getElem?_append_left hlt, Nodes.children]
    · rw [Nodes.children, Nodes.children, List.getElem?_append_right (by omega),
        List.getElem?_eq_none (l := linked) (by omega)]
      cases i - linked.length <;> rfl
  cases parent with
  | none =>
    rw [add, hlast]
    simp
  | some p =>
    rw [add, hlast, Nodes.children, List.getElem?_modify, Nodes.children]
    by_cases hp : p = i
    · subst hp
      simp [List.getElem?_eq_getElem (h p rfl)]
    · simp [hp]

/-- Each node is among the children of its parent and of no other node, after those added before
it. -/
structure Linked (nodes : Nodes α) : Prop where
  mem_children : ∀ p c, c ∈ nodes.children p ↔ nodes.parent c = some p
  parent_lt : ∀ p c, nodes.parent c = some p → p < c
  ascending : ∀ p, (nodes.children p).Pairwise (· < ·)

/-- Without nodes there is nothing to link. -/
theorem linked_nil : Linked ([] : Nodes α) where
  mem_children p c := by simp [Nodes.children, Nodes.parent]
  parent_lt p c h := by cases h
  ascending p := .nil

/-- Adding a node below one that is there keeps the links fitting. -/
theorem Linked.add {parent : Option Nat} (h : nodes.Linked)
    (hparent : ∀ p, parent = some p → p < nodes.length) : (nodes.add label parent).Linked where
  mem_children p c := by
    rw [children_add hparent, parent_add, List.mem_append, h.mem_children]
    by_cases hc : c = nodes.length
    · have hnew : nodes.parent c ≠ some p := fun hp ↦ absurd (lt_of_parent hp) (by omega)
      rw [if_pos hc, ← hc]
      by_cases hp : parent = some p <;> simp [hp, hnew]
    · by_cases hp : parent = some p <;> simp [hc, hp]
  parent_lt p c hp := by
    rw [parent_add] at hp
    by_cases hc : c = nodes.length
    · rw [if_pos hc] at hp
      exact hc ▸ hparent p hp
    · rw [if_neg hc] at hp
      exact h.parent_lt p c hp
  ascending p := by
    rw [children_add hparent, List.pairwise_append]
    refine ⟨h.ascending p, by split <;> simp, fun c hc d hd ↦ ?_⟩
    have hlt : c < nodes.length := lt_of_parent ((h.mem_children p c).mp hc)
    split at hd
    · rwa [List.mem_singleton.mp hd]
    · cases hd

/-- A node is listed once among the children of its parent. -/
theorem Linked.count_children (h : nodes.Linked) {p c : Nat} (hp : nodes.parent c = some p) :
    (nodes.children p).count c = 1 := by
  have hnodup : (nodes.children p).Nodup := (h.ascending p).imp Nat.ne_of_lt
  rw [hnodup.count, if_pos ((h.mem_children p c).mpr hp)]

/-! ### Other labels -/

/-- A change of label adds no node and takes none away. -/
theorem length_relabel (i : Nat) (change : α → α) (nodes : Nodes α) :
    (nodes.relabel i change).length = nodes.length := List.length_modify ..

/-- A change of label leaves the parents as they are. -/
theorem parent_relabel (i : Nat) (change : α → α) (nodes : Nodes α) :
    (nodes.relabel i change).parent = nodes.parent := by
  funext j
  rw [Nodes.parent, relabel, List.getElem?_modify, Nodes.parent]
  cases nodes[j]? with
  | none => rfl
  | some e => by_cases hij : i = j <;> simp [hij]

/-- A change of label leaves the children as they are. -/
theorem children_relabel (i : Nat) (change : α → α) (nodes : Nodes α) :
    (nodes.relabel i change).children = nodes.children := by
  funext j
  rw [Nodes.children, relabel, List.getElem?_modify, Nodes.children]
  cases nodes[j]? with
  | none => rfl
  | some e => by_cases hij : i = j <;> simp [hij]

/-- A change of label shows at the node it is made at, and nowhere else. -/
theorem label?_relabel (i : Nat) (change : α → α) (nodes : Nodes α) (j : Nat) :
    (nodes.relabel i change).label? j =
      if i = j then (nodes.label? j).map change else nodes.label? j := by
  rw [Nodes.label?, relabel, List.getElem?_modify, Nodes.label?]
  cases nodes[j]? with
  | none => by_cases hij : i = j <;> simp [hij]
  | some e => by_cases hij : i = j <;> simp [hij]

/-- Labels have nothing to do with links. -/
theorem Linked.relabel (h : nodes.Linked) (i : Nat) (change : α → α) :
    (nodes.relabel i change).Linked where
  mem_children p c := by rw [children_relabel, parent_relabel, h.mem_children]
  parent_lt p c hp := h.parent_lt p c (by rwa [parent_relabel] at hp)
  ascending p := by
    rw [children_relabel]
    exact h.ascending p

end Nodes

/-! ### The nodes of a builder -/

namespace Builder

/-- The number of nodes that are open or below open ones. -/
def openSize (spine : List (OpenNode α)) : Nat :=
  spine.foldr (fun n size ↦ Forest.size n.children + 1 + size) 0

/-- The number of the innermost open node, if the nodes of its tree are numbered from `start` on. -/
def innermost (start : Nat) : List (OpenNode α) → Option Nat
  | [] => none
  | _ :: above => some (start + openSize above)

/-- The cursor is at the innermost open node, numbered from the end of the complete trees on. -/
theorem cursor?_eq (b : Builder α) : b.cursor? = innermost (Forest.size b.complete) b.spine := by
  unfold cursor?
  cases hspine : b.spine with
  | nil => rfl
  | cons n above =>
    have hsize : b.size =
        Forest.size b.complete + (Forest.size n.children + 1 + openSize above) := by
      rw [size, hspine]
      rfl
    simp only [List.head?_cons, Option.map_some, innermost, Option.some.injEq]
    omega

private theorem size_closeSpine (below : Forest α) (spine : List (OpenNode α)) :
    Forest.size (closeSpine below spine) = openSize spine + Forest.size below := by
  induction spine generalizing below with
  | nil => simp [closeSpine, openSize]
  | cons n above ih =>
    rw [closeSpine, ih]
    simp only [Forest.size, Tree.size, Forest.size_append, openSize, List.foldr_cons]
    omega

/-- The table of a builder's forest has an entry for each of its nodes. -/
theorem length_table (b : Builder α) : (Forest.table b.forest).length = b.size := by
  rw [Forest.table, Forest.length_entries, forest, Forest.size_append, size_closeSpine]
  rfl

/-- A tree added below the innermost open node is last in the forest. -/
theorem forest_attach (t : Tree α) (b : Builder α) :
    (b.attach t).forest = b.complete ++ closeSpine [t] b.spine := by
  unfold attach
  split
  · next h => simp [forest, h, closeSpine]
  · next n above h => simp [forest, h, closeSpine]

private theorem forest_climb (b : Builder α) : b.climb.forest = b.forest := by
  unfold climb
  split
  · rfl
  · next n above h =>
    rw [forest_attach, forest, h, closeSpine, List.append_nil]
    rfl

/-- The last of the trees below the innermost open node comes last in the table, and what comes
before it does not depend on it. -/
theorem entries_closeSpine (start : Nat) (spine : List (OpenNode α)) :
    ∃ front : Nodes α, front.length = openSize spine ∧ ∀ t,
      Forest.entries none start (closeSpine [t] spine) =
        front ++ t.entries (innermost start spine) (start + openSize spine) := by
  induction spine with
  | nil => exact ⟨[], rfl, fun t ↦ List.append_nil _⟩
  | cons n above ih =>
    obtain ⟨front, hlength, hfront⟩ := ih
    generalize hnumber : start + openSize above = number at hfront
    refine ⟨front ++
      { label := n.label
        parent := innermost start above
        children := Forest.numbers (number + 1) n.children ++
          [number + 1 + Forest.size n.children] } ::
      Forest.entries (some number) (number + 1) n.children, ?_, fun t ↦ ?_⟩
    · rw [List.length_append, List.length_cons, hlength, Forest.length_entries]
      simp only [openSize, List.foldr_cons]
      omega
    · have hlast : start + openSize (n :: above) = number + 1 + Forest.size n.children := by
        simp only [openSize, List.foldr_cons] at hnumber ⊢
        omega
      rw [closeSpine, hfront, Tree.entries, Forest.numbers_append, Forest.entries_append, hlast,
        innermost, hnumber]
      simp [Forest.numbers, Forest.entries]

/-- While the cursor is on a node, the entry of that node is followed only by what is below it. -/
theorem table_of_open {b : Builder α} {n : OpenNode α} {above : List (OpenNode α)}
    (h : b.spine = n :: above) : ∃ front : Nodes α, b.cursor? = some front.length ∧
      ∀ more, Forest.table (b.complete ++ closeSpine more (n :: above)) =
        front ++ Tree.entries (innermost (Forest.size b.complete) above) front.length
          (.node n.label (n.children ++ more)) := by
  obtain ⟨front, hlength, hfront⟩ := entries_closeSpine (Forest.size b.complete) above
  refine ⟨Forest.table b.complete ++ front, ?_, fun more ↦ ?_⟩
  · rw [cursor?_eq, h, innermost, List.length_append, Forest.table, Forest.length_entries, hlength]
  · rw [closeSpine, Forest.table, Forest.entries_append, Nat.zero_add, hfront, List.append_assoc,
      List.length_append, Forest.table, Forest.length_entries, hlength]

/-- The parent of the node under the cursor is the next open node. -/
theorem parent_of_open {b : Builder α} {n : OpenNode α} {above : List (OpenNode α)}
    (h : b.spine = n :: above) :
    b.cursor?.bind (Nodes.parent (Forest.table b.forest)) =
      innermost (Forest.size b.complete) above := by
  obtain ⟨front, hcursor, htable⟩ := table_of_open h
  rw [forest, h, htable, hcursor, Tree.entries]
  simp [Nodes.parent]

/-- A leaf gets the next number and is linked to the node under the cursor. -/
theorem table_addLeaf (label : α) (b : Builder α) :
    Forest.table (b.complete ++ closeSpine [.leaf label] b.spine) =
      Nodes.add label b.cursor? (Forest.table b.forest) := by
  cases h : b.spine with
  | nil =>
    rw [cursor?_eq, h, forest, h, Forest.table, Forest.entries_append, Forest.table]
    simp [closeSpine, innermost, Nodes.add, Forest.entries, Tree.entries, Tree.leaf, Forest.numbers]
  | cons n above =>
    obtain ⟨front, hcursor, htable⟩ := table_of_open h
    have hlink : ∀ (e : Entry α) (back : Nodes α) (change : Entry α → Entry α),
        (front ++ e :: back).modify front.length change = front ++ change e :: back :=
      fun e back change ↦ List.modifyTailIdx_add (List.modifyHead change) 0 front (e :: back)
    rw [htable, forest, h, htable, hcursor, Nodes.add, List.append_nil, Tree.entries, Tree.entries,
      Forest.numbers_append, Forest.entries_append]
    simp only [hlink]
    simp [Forest.numbers, Forest.entries, Tree.entries, Tree.leaf, Forest.length_entries]
    omega

/-- Adding a tree does not move the cursor. -/
theorem cursor?_attach (t : Tree α) (b : Builder α) : (b.attach t).cursor? = b.cursor? := by
  rw [cursor?_eq, cursor?_eq]
  unfold attach
  split
  · next h => rw [h]; rfl
  · next n above h => rw [h]; rfl

/-- The builder has the nodes of the arena, by number, and its cursor. -/
structure Mirrors (b : Builder α) (a : Arena α) : Prop where
  nodes : Forest.table b.forest = a.nodes
  cursor : b.cursor? = a.cursor

/-- A builder and an arena stay alike if they take the same step. -/
theorem Mirrors.take {b : Builder α} {a : Arena α} (h : b.Mirrors a) (step : BuildStep α) :
    (b.take step).Mirrors (a.take step) := by
  have hattach : ∀ label, Forest.table (b.complete ++ closeSpine [.leaf label] b.spine) =
      a.nodes.add label a.cursor := by
    intro label
    rw [table_addLeaf, h.nodes, h.cursor]
  cases step with
  | branch label =>
    refine ⟨hattach label, ?_⟩
    have hcursor : (b.addBranch label).cursor? = some b.size := cursor?_eq _
    rw [Builder.take, hcursor, ← b.length_table, h.nodes]
    rfl
  | leaf label =>
    refine ⟨?_, (cursor?_attach _ b).trans h.cursor⟩
    rw [Builder.take, addLeaf, forest_attach]
    exact hattach label
  | climb =>
    refine ⟨(congrArg Forest.table b.forest_climb).trans h.nodes, ?_⟩
    rw [Builder.take, Arena.take, ← h.cursor, ← h.nodes, climb]
    split
    · next hspine =>
      rw [cursor?_eq, hspine]
      rfl
    · next n above hspine =>
      rw [cursor?_attach, cursor?_eq, parent_of_open hspine]

end Builder

/-! ### What every sequence of steps keeps -/

namespace Arena

/-- The links fit each other, the first node is the root, and the cursor, if there is one, is on a
node. -/
structure Sound (a : Arena α) : Prop where
  linked : a.nodes.Linked
  root : a.root = if a.nodes.isEmpty then none else some 0
  cursor_lt : ∀ i, a.cursor = some i → i < a.nodes.length

private theorem sound_start : Sound ({} : Arena α) where
  linked := Nodes.linked_nil
  root := rfl
  cursor_lt _ h := by cases h

private theorem Sound.attach {a : Arena α} (h : a.Sound) (label : α) : (a.attach label).Sound where
  linked := h.linked.add h.cursor_lt
  root := by
    have hroot := h.root
    have hsome : (a.nodes.add label a.cursor).isEmpty = false := by
      rw [List.isEmpty_eq_false_iff_exists_mem]
      exact ⟨_, List.mem_append_right _ (List.mem_singleton_self _)⟩
    rw [Arena.attach, hsome]
    cases hnodes : a.nodes with
    | nil =>
      cases hcursor : a.cursor with
      | none => simp [hroot, hnodes]
      | some i => exact absurd (h.cursor_lt i hcursor) (by simp [hnodes])
    | cons e nodes =>
      rw [hnodes] at hroot
      cases a.cursor <;> simp [hroot]
  cursor_lt i hi := by
    rw [Arena.attach, Nodes.length_add]
    exact Nat.lt_succ_of_lt (h.cursor_lt i hi)

private theorem Sound.take {a : Arena α} (h : a.Sound) (step : BuildStep α) :
    (a.take step).Sound := by
  cases step with
  | branch label =>
    refine { h.attach label with cursor_lt := fun i hi ↦ ?_ }
    cases hi
    exact Nat.lt_of_lt_of_eq (Nat.lt_succ_self _) (Nodes.length_add ..).symm
  | leaf label => exact h.attach label
  | climb =>
    refine { h with cursor_lt := fun i hi ↦ ?_ }
    obtain ⟨j, hj, hparent⟩ := Option.bind_eq_some_iff.mp hi
    exact Nat.lt_trans (h.linked.parent_lt i j hparent) (h.cursor_lt j hj)

end Arena

/-- After the same steps a builder and an arena have the same nodes and the same cursor, and the
arena is sound. -/
theorem after_mirrors (steps : List (BuildStep α)) :
    (Builder.after steps).Mirrors (Arena.after steps) ∧ (Arena.after steps).Sound := by
  suffices hrun : ∀ (b : Builder α) (a : Arena α), b.Mirrors a → a.Sound →
      (steps.foldl Builder.take b).Mirrors (steps.foldl Arena.take a) ∧
        (steps.foldl Arena.take a).Sound from
    hrun {} {} ⟨rfl, rfl⟩ Arena.sound_start
  induction steps with
  | nil => exact fun b a hmirrors hsound ↦ ⟨hmirrors, hsound⟩
  | cons step steps ih =>
    exact fun b a hmirrors hsound ↦ ih _ _ (hmirrors.take step) (hsound.take step)

end OnePage
