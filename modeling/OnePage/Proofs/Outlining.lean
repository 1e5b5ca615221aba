import Mathlib.Data.List.Forall2
import OnePage.Proofs.Collections
import OnePage.Proofs.Preorder
import OnePage.Tree.Outline

/-!
# Outlines lose nothing

A line of an outline tells the depth of its node by its dashes, since a bracket follows them
whatever the label is. The lines of the nodes below a node are those after its own up to the first
that is not deeper, so the lines tell the tree; and the text tells the lines if no label breaks one.
-/

namespace OnePage

/-! ### Lines -/

namespace Outline

/-- The number of dashes that a line begins with. -/
def dashes (line : String) : Nat := (line.toList.takeWhile (· == '-')).length

/-- The characters of a line: dashes, a bracket, the label and the other bracket. -/
theorem toList_line (depth : Nat) (label : String) (isLeaf : Bool) :
    (line depth label isLeaf).toList = List.replicate depth '-' ++
      (if isLeaf then '[' else '<') :: (label.toList ++ [if isLeaf then ']' else '>']) := by
  cases isLeaf <;> simp [line]

private theorem dashes_line (depth : Nat) (label : String) (isLeaf : Bool) :
    dashes (line depth label isLeaf) = depth := by
  rw [dashes, toList_line, List.takeWhile_append_of_pos (by simp)]
  cases isLeaf <;> simp

/-- Lines of one depth tell their labels. -/
theorem label_of_line {depth : Nat} {first second : String} {isLeaf isLeaf' : Bool}
    (h : line depth first isLeaf = line depth second isLeaf') : first = second := by
  have hchars := congrArg String.toList h
  rw [toList_line, toList_line, List.append_cancel_left_eq, List.cons.injEq] at hchars
  exact String.toList_inj.mp (List.append_inj_left' hchars.2 rfl)

/-- A line is broken only by its label. -/
theorem newline_not_mem_line {label : String} (h : '\n' ∉ label.toList) (depth : Nat)
    (isLeaf : Bool) : '\n' ∉ (line depth label isLeaf).toList := by
  rw [toList_line]
  cases isLeaf <;> simp [h]

/-- The text of ended lines. -/
def textOf (lines : List String) : String := String.join (lines.map (· ++ "\n"))

private theorem toList_textOf_cons (line : String) (lines : List String) :
    (textOf (line :: lines)).toList = line.toList ++ '\n' :: (textOf lines).toList := by
  simp [textOf, String.join_cons]

/-- The text of ended lines tells the lines, if none of them is broken. -/
theorem lines_of_text {xs ys : List String} (hx : ∀ line ∈ xs, '\n' ∉ line.toList)
    (hy : ∀ line ∈ ys, '\n' ∉ line.toList) (h : textOf xs = textOf ys) : xs = ys := by
  have hchars : ∀ {line : String}, '\n' ∉ line.toList → ∀ c ∈ line.toList, (c != '\n') = true := by
    intro line hline c hc
    exact bne_iff_ne.mpr fun heq ↦ hline (heq ▸ hc)
  replace h := congrArg String.toList h
  induction xs generalizing ys with
  | nil =>
    cases ys with
    | nil => rfl
    | cons y ys =>
      rw [toList_textOf_cons] at h
      exact absurd h (by simp [textOf])
  | cons x xs ih =>
    cases ys with
    | nil =>
      rw [toList_textOf_cons] at h
      exact absurd h (by simp [textOf])
    | cons y ys =>
      obtain ⟨hfirst, hx⟩ := List.forall_mem_cons.mp hx
      obtain ⟨hfirst', hy⟩ := List.forall_mem_cons.mp hy
      rw [toList_textOf_cons, toList_textOf_cons] at h
      obtain ⟨hline, hrest⟩ :=
        append_inj_of_while (hchars hfirst) (by simp) (hchars hfirst') (by simp) h
      rw [String.toList_inj.mp hline, ih hx hy (List.cons.inj hrest).2]

end Outline

/-! ### Lines tell the tree -/

mutual

private theorem Tree.le_dashes : ∀ (t : Tree String) (depth : Nat),
    ∀ line ∈ t.outline id depth, depth ≤ Outline.dashes line
  | .node a ts, depth => by
    rw [Tree.outline, List.forall_mem_cons, Outline.dashes_line]
    exact ⟨Nat.le_refl _, fun line h ↦
      Nat.le_of_succ_le (Forest.le_dashes ts (depth + 1) line h)⟩

private theorem Forest.le_dashes : ∀ (ts : Forest String) (depth : Nat),
    ∀ line ∈ Forest.outline id depth ts, depth ≤ Outline.dashes line
  | [], _ => by simp [Forest.outline]
  | t :: ts, depth => by
    rw [Forest.outline, List.forall_mem_append]
    exact ⟨Tree.le_dashes t depth, Forest.le_dashes ts depth⟩

end

/-- The outline of a forest begins with the line of a root. -/
theorem Forest.dashes_head {ts : Forest String} {depth : Nat} :
    ∀ line ∈ (Forest.outline id depth ts).head?, Outline.dashes line = depth := by
  intro line h
  cases ts with
  | nil => cases h
  | cons t ts =>
    cases t with
    | node a below =>
      cases h
      exact Outline.dashes_line ..

mutual

/-- Trees with the same outline are the same. -/
theorem Tree.eq_of_outline : ∀ (t u : Tree String) (depth : Nat),
    t.outline id depth = u.outline id depth → t = u
  | .node a ts, .node b us, depth, h => by
    rw [Tree.outline, Tree.outline, List.cons.injEq] at h
    have hlabel : a = b := Outline.label_of_line h.1
    rw [hlabel, Forest.eq_of_outline ts us (depth + 1) h.2]

/-- Forests with the same outline are the same. -/
theorem Forest.eq_of_outline : ∀ (ts us : Forest String) (depth : Nat),
    Forest.outline id depth ts = Forest.outline id depth us → ts = us
  | [], [], _, _ => rfl
  | [], .node b below :: us, depth, h => by cases h
  | .node a below :: ts, [], depth, h => by cases h
  | .node a below :: ts, .node b others :: us, depth, h => by
    -- After the line of the first root come deeper lines, and then one that is not.
    rw [Forest.outline, Forest.outline, Tree.outline, Tree.outline, List.cons_append,
      List.cons_append, List.cons.injEq] at h
    have hdeeper : ∀ us : Forest String, ∀ line ∈ Forest.outline id (depth + 1) us,
        decide (depth < Outline.dashes line) = true :=
      fun us line hline ↦ decide_eq_true (Forest.le_dashes us (depth + 1) line hline)
    have hnext : ∀ us : Forest String, ∀ line ∈ (Forest.outline id depth us).head?,
        decide (depth < Outline.dashes line) = false :=
      fun us line hline ↦ decide_eq_false (by rw [Forest.dashes_head line hline]; omega)
    obtain ⟨hbelow, hrest⟩ :=
      append_inj_of_while (hdeeper below) (hnext ts) (hdeeper others) (hnext us) h.2
    have hfirst :
        Tree.outline id depth (.node a below) = Tree.outline id depth (.node b others) := by
      rw [Tree.outline, Tree.outline, h.1, hbelow]
    rw [Tree.eq_of_outline (.node a below) (.node b others) depth hfirst,
      Forest.eq_of_outline ts us depth hrest]

end

/-! ### The line of each node -/

/-- The line of a node: as many dashes as there are nodes above it, and its label in the brackets of
a node with or without children. -/
def Nodes.HasLine (nodes : Nodes String) (i : Nat) (line : String) : Prop :=
  ∃ entry chain, nodes[i]? = some entry ∧ Ascends nodes.parent i chain ∧
    Outline.dashes line = chain.length ∧
    line = Outline.line chain.length entry.label entry.children.isEmpty

section Table

variable {nodes : Nodes String}

mutual

/-- The outline of a tree has the lines of its nodes in order. -/
theorem Tree.outline_hasLine : ∀ (t : Tree String) (parent : Option Nat) (n : Nat)
    (chain : List Nat), nodes.Holds n (t.entries parent n) →
      (∀ i, nodes.parent i = parent → Ascends nodes.parent i chain) →
      List.Forall₂ nodes.HasLine (List.range' n t.size) (t.outline id chain.length)
  | .node a ts, parent, n, chain, h, hchain => by
    obtain ⟨hentry, hbelow⟩ := h.cons
    have hroot : Ascends nodes.parent n chain := hchain n (by simp [Nodes.parent, hentry])
    have hempty : (Forest.numbers (n + 1) ts).isEmpty = ts.isEmpty := by cases ts <;> rfl
    rw [Tree.size, List.range'_succ, Tree.outline]
    refine .cons ⟨_, chain, hentry, hroot, Outline.dashes_line .., ?_⟩ ?_
    · rw [hempty]
      rfl
    · exact Forest.outline_hasLine ts (some n) (n + 1) (n :: chain) hbelow
        fun j hj ↦ .up hj hroot

/-- The outline of a forest has the lines of its nodes in order. -/
theorem Forest.outline_hasLine : ∀ (ts : Forest String) (parent : Option Nat) (n : Nat)
    (chain : List Nat), nodes.Holds n (Forest.entries parent n ts) →
      (∀ i, nodes.parent i = parent → Ascends nodes.parent i chain) →
      List.Forall₂ nodes.HasLine (List.range' n (Forest.size ts))
        (Forest.outline id chain.length ts)
  | [], _, _, _, _, _ => .nil
  | t :: ts, parent, n, chain, h, hchain => by
    obtain ⟨hfirst, hrest⟩ := h.append
    rw [Tree.length_entries] at hrest
    rw [Forest.size, ← List.range'_append_1, Forest.outline]
    exact List.rel_append (Tree.outline_hasLine t parent n chain hfirst hchain)
      (Forest.outline_hasLine ts parent (n + t.size) chain hrest hchain)

end

end Table

/-! ### The outline of the main tree -/

mutual

/-- Lines are unbroken if the labels are. -/
theorem Tree.outline_unbroken : ∀ (t : Tree String) (depth : Nat),
    (∀ label ∈ t.labels, '\n' ∉ label.toList) →
      ∀ line ∈ t.outline id depth, '\n' ∉ line.toList
  | .node a ts, depth, h => by
    rw [Tree.labels, List.forall_mem_cons] at h
    rw [Tree.outline, List.forall_mem_cons]
    exact ⟨Outline.newline_not_mem_line h.1 depth _, Forest.outline_unbroken ts (depth + 1) h.2⟩

private theorem Forest.outline_unbroken : ∀ (ts : Forest String) (depth : Nat),
    (∀ label ∈ Forest.labels ts, '\n' ∉ label.toList) →
      ∀ line ∈ Forest.outline id depth ts, '\n' ∉ line.toList
  | [], _, _ => by simp [Forest.outline]
  | t :: ts, depth, h => by
    rw [Forest.labels, List.forall_mem_append] at h
    rw [Forest.outline, List.forall_mem_append]
    exact ⟨Tree.outline_unbroken t depth h.1, Forest.outline_unbroken ts depth h.2⟩

end

namespace Forest

variable {ts us : Forest String}

private theorem outline_main_unbroken (h : ∀ label ∈ Forest.labels ts, '\n' ∉ label.toList) :
    ∀ line ∈ Forest.outline id 0 (ts.take 1), '\n' ∉ line.toList := by
  apply Forest.outline_unbroken
  intro label hlabel
  apply h
  rw [← List.take_append_drop 1 ts, Forest.labels_append]
  exact List.mem_append_left _ hlabel

/-- The outline of the main tree has the line of each of its nodes, in preorder. -/
theorem outline_main_hasLine (ts : Forest String) :
    List.Forall₂ (Nodes.HasLine (table ts)) (preorder ts) (Forest.outline id 0 (ts.take 1)) := by
  cases ts with
  | nil => exact .nil
  | cons t ts =>
    have hfirst := (Nodes.holds_self (table (t :: ts))).append.1
    have hlines := Tree.outline_hasLine t none 0 [] hfirst fun _ ↦ .top
    rw [preorder_cons, List.range_eq_range']
    simpa [Forest.outline] using hlines

private theorem take_one_inj : ts.take 1 = us.take 1 ↔ ts.head? = us.head? := by
  cases ts <;> cases us <;> simp

end Forest

/-- The outlines of two trees without broken labels are equal just if the trees are. An outline has
one line for each node in preorder, which begins with as many dashes as there are nodes above the
node. -/
theorem render_lossless (xs ys : List (BuildStep String))
    (hx : ∀ label ∈ Forest.labels (Builder.after xs).forest, '\n' ∉ label.toList)
    (hy : ∀ label ∈ Forest.labels (Builder.after ys).forest, '\n' ∉ label.toList) :
    (Forest.render id (Builder.after xs).forest = Forest.render id (Builder.after ys).forest ↔
      (Builder.after xs).forest.head? = (Builder.after ys).forest.head?) ∧
      ∃ lines, Forest.render id (Builder.after xs).forest = Outline.textOf lines ∧
        (∀ line ∈ lines, '\n' ∉ line.toList) ∧
        List.Forall₂ (Arena.after xs).nodes.HasLine (Forest.preorder (Builder.after xs).forest)
          lines := by
  have hxs := Forest.outline_main_unbroken hx
  have hys := Forest.outline_main_unbroken hy
  have hlines := Forest.outline_main_hasLine (Builder.after xs).forest
  rw [(after_mirrors xs).1.nodes] at hlines
  refine ⟨⟨fun h ↦ ?_, fun h ↦ ?_⟩, _, rfl, hxs, hlines⟩
  · have houtline := Outline.lines_of_text hxs hys h
    exact Forest.take_one_inj.mp (Forest.eq_of_outline _ _ 0 houtline)
  · rw [Forest.render, Forest.take_one_inj.mpr h, Forest.render]

/-- A node with one below it whose label looks like the line of another, and a tree apart. -/
def dashedLabel : List (BuildStep String) :=
  [.branch "a", .leaf "-[b]", .climb, .leaf "c"]

/-- A node with one below it and another below that. -/
def twoBelow : List (BuildStep String) := [.branch "a", .branch "", .leaf "b"]

/-- The outlines of the two trees differ. -/
theorem render_lossless_dashedLabel :
    (∀ label ∈ Forest.labels (Builder.after dashedLabel).forest, '\n' ∉ label.toList) ∧
      (∀ label ∈ Forest.labels (Builder.after twoBelow).forest, '\n' ∉ label.toList) ∧
      Forest.render id (Builder.after dashedLabel).forest ≠
        Forest.render id (Builder.after twoBelow).forest := by
  have hx : ∀ label ∈ Forest.labels (Builder.after dashedLabel).forest, '\n' ∉ label.toList := by
    decide
  have hy : ∀ label ∈ Forest.labels (Builder.after twoBelow).forest, '\n' ∉ label.toList := by
    decide
  refine ⟨hx, hy, fun h ↦ ?_⟩
  have htrees := (render_lossless dashedLabel twoBelow hx hy).1.mp h
  exact absurd (congrArg (Option.map Tree.size) htrees) (by decide)

end OnePage
