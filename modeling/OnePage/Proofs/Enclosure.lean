import OnePage.Proofs.Occurrence

/-!
# Blocks around a node

Which scopes a resolved tree asks for: one for each block, numbered in order. The scopes around a
node are those of the blocks on the trail to it, and a declaration is in the innermost of them.
-/

namespace OnePage

/-- The label is that of a block. -/
def Resolved.isBlock (r : Resolved) : Bool := r.node == .branch .block

/-- The label is that of a declaration. -/
def Resolved.isDeclaration (r : Resolved) : Bool := r.node == .branch .varDecl

/-- The number of blocks in a forest. -/
def Forest.blocks (ts : Forest Resolved) : Nat := (Forest.labels ts).countP Resolved.isBlock

/-- A type and a name with the symbol it is declared as. -/
structure Declaration where
  type : Token
  name : Token
  symbol : SymbolId

/-- The tree of a declaration. -/
def Declaration.tree (d : Declaration) : Tree Resolved :=
  .node { node := .branch .varDecl }
    [.leaf { node := .leaf d.type }, .leaf { node := .leaf d.name, symbol := some d.symbol }]

/-- The entry of a declaration in a table of symbols. -/
def Declaration.entry (d : Declaration) (scope : ScopeId) : Symbol :=
  { name := d.name.lexeme, type := .ofKeyword d.type.lexeme, token := d.name, scope }

/-- The declaration that a tree is the tree of. -/
def Tree.declaration? : Tree Resolved → Option Declaration
  | .node { node := .branch .varDecl, symbol := none }
      [.node { node := .leaf type, symbol := none } [],
        .node { node := .leaf name, symbol := some symbol } []] => some { type, name, symbol }
  | _ => none

/-- A tree is read as a declaration just if it is the tree of that declaration. -/
theorem Tree.declaration?_eq_some {t : Tree Resolved} {d : Declaration} :
    t.declaration? = some d ↔ t = d.tree := by
  constructor
  · intro h
    unfold declaration? at h
    split at h
    · cases h
      rfl
    · cases h
  · rintro rfl
    rfl

/-- A node that is no declaration is not read as one. -/
theorem Tree.declaration?_eq_none {r : Resolved} {ts : Forest Resolved}
    (h : r.isDeclaration = false) : Tree.declaration? (.node r ts) = none := by
  unfold declaration?
  split
  · next heq =>
    cases heq
    cases h
  · rfl

/-! ### The scopes around each subtree -/

mutual

/-- A tree and its subtrees in order, each with the scopes around it, innermost first. Its blocks
open the scopes from `n` on. -/
def Tree.enclosed (around : List ScopeId) (n : Nat) :
    Tree Resolved → List (Tree Resolved × List ScopeId)
  | .node r ts => (.node r ts, around) ::
      if r.isBlock then Forest.enclosed (n :: around) (n + 1) ts else Forest.enclosed around n ts

/-- The subtrees of a forest in order, each with the scopes around it. -/
def Forest.enclosed (around : List ScopeId) (n : Nat) :
    Forest Resolved → List (Tree Resolved × List ScopeId)
  | [] => []
  | t :: ts => t.enclosed around n ++ Forest.enclosed around (n + Forest.blocks [t]) ts

end

/-- The scopes around each of the blocks. -/
def openedBy (places : List (Tree Resolved × List ScopeId)) : List (List ScopeId) :=
  (places.filter (·.1.label.isBlock)).map (·.2)

/-- The symbols of the declarations, each in the innermost scope around it. -/
def declaredBy (places : List (Tree Resolved × List ScopeId)) : List (Symbol × SymbolId) :=
  places.filterMap fun place ↦
    place.1.declaration?.map fun d ↦ (d.entry (place.2.headD 0), d.symbol)

section Places

variable {t : Tree Resolved} {r : Resolved} {ts : Forest Resolved} {around : List ScopeId}
  {n : Nat} {places : List (Tree Resolved × List ScopeId)}

/-- A block is in the scopes around it, and its children are in the scope that it opens, too. -/
theorem Tree.enclosed_block (h : r.isBlock = true) : Tree.enclosed around n (.node r ts) =
    (.node r ts, around) :: Forest.enclosed (n :: around) (n + 1) ts := by
  rw [Tree.enclosed, if_pos h]

/-- A node that is no block leaves its children in the scopes that it is in. -/
theorem Tree.enclosed_other (h : r.isBlock = false) : Tree.enclosed around n (.node r ts) =
    (.node r ts, around) :: Forest.enclosed around n ts := by
  rw [Tree.enclosed, if_neg (by simp [h])]

/-- A block opens a scope inside those around it. -/
theorem openedBy_block (h : r.isBlock = true) :
    openedBy ((.node r ts, around) :: places) = around :: openedBy places := by
  simp [openedBy, Tree.label, h]

/-- A node that is no block opens no scope. -/
theorem openedBy_other (h : r.isBlock = false) :
    openedBy ((.node r ts, around) :: places) = openedBy places := by
  simp [openedBy, Tree.label, h]

/-- A tree that is no declaration declares nothing. -/
theorem declaredBy_other (h : t.declaration? = none) :
    declaredBy ((t, around) :: places) = declaredBy places := by
  simp [declaredBy, h]

end Places

/-- The scopes opened at some places and then at others are those of both, in order. -/
theorem openedBy_append (xs ys : List (Tree Resolved × List ScopeId)) :
    openedBy (xs ++ ys) = openedBy xs ++ openedBy ys := by
  simp [openedBy]

/-- The symbols declared at some places and then at others are those of both, in order. -/
theorem declaredBy_append (xs ys : List (Tree Resolved × List ScopeId)) :
    declaredBy (xs ++ ys) = declaredBy xs ++ declaredBy ys := by
  simp [declaredBy]

mutual

/-- The places in a tree are those of its subtrees, in order. -/
theorem Tree.map_fst_enclosed : ∀ (t : Tree Resolved) (around : List ScopeId) (n : Nat),
    (t.enclosed around n).map Prod.fst = t.subtrees
  | .node r ts, around, n => by
    rw [Tree.enclosed, Tree.subtrees]
    split
    · exact congrArg (_ :: ·) (Forest.map_fst_enclosed ts (n :: around) (n + 1))
    · exact congrArg (_ :: ·) (Forest.map_fst_enclosed ts around n)

private theorem Forest.map_fst_enclosed :
    ∀ (ts : Forest Resolved) (around : List ScopeId) (n : Nat),
    (Forest.enclosed around n ts).map Prod.fst = Forest.subtrees ts
  | [], _, _ => rfl
  | t :: ts, around, n => by
    rw [Forest.enclosed, Forest.subtrees, List.map_append, Tree.map_fst_enclosed t,
      Forest.map_fst_enclosed ts]

end

namespace Forest

private theorem blocks_append (xs ys : Forest Resolved) :
    blocks (xs ++ ys) = blocks xs + blocks ys := by
  rw [blocks, labels_append, List.countP_append, blocks, blocks]

/-- The second of two forests starts with the scope after those that the first opens. -/
theorem enclosed_append (xs ys : Forest Resolved) (around : List ScopeId) (n : Nat) :
    enclosed around n (xs ++ ys) = enclosed around n xs ++ enclosed around (n + blocks xs) ys := by
  induction xs generalizing n with
  | nil => rfl
  | cons t ts ih =>
    have hcount : n + blocks [t] + blocks ts = n + blocks (t :: ts) := by
      rw [Nat.add_assoc, ← blocks_append, List.singleton_append]
    rw [List.cons_append, enclosed, enclosed, ih, hcount, List.append_assoc]

/-- A forest of one tree has the places of that tree. -/
theorem enclosed_singleton (t : Tree Resolved) (around : List ScopeId) (n : Nat) :
    enclosed around n [t] = t.enclosed around n := by
  rw [enclosed, enclosed, List.append_nil]

end Forest

/-- As many scopes are opened as there are blocks. -/
theorem length_openedBy (places : List (Tree Resolved × List ScopeId)) :
    (openedBy places).length =
      ((places.map Prod.fst).map Tree.label).countP Resolved.isBlock := by
  rw [openedBy, List.length_map, List.countP_map, List.countP_map, List.countP_eq_length_filter]
  rfl

/-- As many scopes are opened as there are blocks. -/
theorem length_openedBy_enclosed (around : List ScopeId) (n : Nat) (ts : Forest Resolved) :
    (openedBy (Forest.enclosed around n ts)).length = Forest.blocks ts := by
  rw [length_openedBy, Forest.map_fst_enclosed, Forest.map_label_subtrees, Forest.blocks]

/-- The symbols are those that the trees declare, in order. -/
theorem map_snd_declaredBy (places : List (Tree Resolved × List ScopeId)) :
    (declaredBy places).map Prod.snd =
      ((places.map Prod.fst).filterMap Tree.declaration?).map Declaration.symbol := by
  simp [declaredBy, List.map_filterMap, List.filterMap_map, Function.comp_def]

/-! ### The scopes along a trail -/

namespace Trail

/-- The number of blocks before the end of a trail. -/
def blocks (trail : Trail Resolved) : Nat := (Trail.before trail).countP Resolved.isBlock

/-- The scopes of the blocks on a trail, innermost first, if blocks open the scopes from `n` on. -/
def scopes (n : Nat) : Trail Resolved → List ScopeId
  | [] => []
  | (r, left) :: trail => scopes (n + blocks [(r, left)]) trail ++ if r.isBlock then [n] else []

private theorem blocks_append (outer inner : Trail Resolved) :
    blocks (outer ++ inner) = blocks outer + blocks inner := by
  rw [blocks, before_append, List.countP_append, blocks, blocks]

private theorem blocks_single (r : Resolved) (left : Forest Resolved) :
    blocks [(r, left)] = (if r.isBlock then 1 else 0) + Forest.blocks left := by
  simp [blocks, before, Forest.blocks, List.countP_cons, Nat.add_comm]

private theorem scopes_append (n : Nat) (outer inner : Trail Resolved) :
    scopes n (outer ++ inner) = scopes (n + blocks outer) inner ++ scopes n outer := by
  induction outer generalizing n with
  | nil => simp [scopes, blocks, before]
  | cons level outer ih =>
    have hblocks : n + blocks [level] + blocks outer = n + blocks (level :: outer) := by
      rw [Nat.add_assoc, ← blocks_append, List.singleton_append]
    rw [List.cons_append, scopes, scopes, ih, hblocks, List.append_assoc]

/-- Without blocks there are no scopes. -/
theorem scopes_eq_nil {trail : Trail Resolved} (h : ∀ level ∈ trail, level.1.isBlock = false)
    (n : Nat) : scopes n trail = [] := by
  induction trail generalizing n with
  | nil => rfl
  | cons level trail ih =>
    obtain ⟨hlevel, htrail⟩ := List.forall_mem_cons.mp h
    rw [scopes, ih htrail, hlevel]
    rfl

/-- The innermost scope on a trail is that of the last block. -/
theorem scopes_of_last {outer inner : Trail Resolved} {r : Resolved} {left : Forest Resolved}
    (hr : r.isBlock = true) (h : ∀ level ∈ inner, level.1.isBlock = false) (n : Nat) :
    scopes n (outer ++ (r, left) :: inner) = (n + blocks outer) :: scopes n outer := by
  rw [scopes_append, scopes, scopes_eq_nil h, if_pos hr]
  rfl

end Trail

/-- What is in a child comes after what is in the trees to the left of it. -/
theorem Forest.enclosed_child {left right : Forest Resolved} {child : Tree Resolved}
    {around : List ScopeId} {n : Nat} {front back : List (Tree Resolved × List ScopeId)}
    {place : Tree Resolved × List ScopeId}
    (h : child.enclosed around (n + Forest.blocks left) = front ++ place :: back) :
    ∃ more, Forest.enclosed around n (left ++ child :: right) =
      Forest.enclosed around n left ++ front ++ place :: more := by
  refine ⟨back ++ Forest.enclosed around (n + Forest.blocks left + Forest.blocks [child]) right, ?_⟩
  rw [Forest.enclosed_append, Forest.enclosed, h]
  simp

/-- A tree at the end of a trail is within the scopes of the blocks on it. -/
theorem Tree.Occurs.enclosed {t u : Tree Resolved} {trail : Trail Resolved}
    (h : t.Occurs trail u) (around : List ScopeId) (n : Nat) :
    ∃ front back, t.enclosed around n = front ++ (u, trail.scopes n ++ around) :: back ∧
      (front.map Prod.fst).map Tree.label = trail.before := by
  induction h generalizing around n with
  | @here t =>
    cases t with
    | node r ts => exact ⟨[], _, rfl, rfl⟩
  | @inside r left right child u trail _ ih =>
    rw [Trail.scopes, Trail.blocks_single]
    cases hr : r.isBlock with
    | true =>
      obtain ⟨front, back, hchild, hfront⟩ := ih (n :: around) (n + 1 + Forest.blocks left)
      obtain ⟨more, hmore⟩ := Forest.enclosed_child hchild
      refine ⟨(.node r (left ++ child :: right), around) ::
        (Forest.enclosed (n :: around) (n + 1) left ++ front), more, ?_, ?_⟩
      · rw [Tree.enclosed_block hr, hmore]
        simp [Nat.add_assoc]
      · simp [Trail.before, Forest.map_fst_enclosed, Forest.map_label_subtrees, hfront, Tree.label]
    | false =>
      obtain ⟨front, back, hchild, hfront⟩ := ih around (n + Forest.blocks left)
      obtain ⟨more, hmore⟩ := Forest.enclosed_child hchild
      refine ⟨(.node r (left ++ child :: right), around) ::
        (Forest.enclosed around n left ++ front), more, ?_, ?_⟩
      · rw [Tree.enclosed_other hr, hmore]
        simp
      · simp [Trail.before, Forest.map_fst_enclosed, Forest.map_label_subtrees, hfront, Tree.label]

end OnePage
