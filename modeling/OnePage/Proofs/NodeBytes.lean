import OnePage.Proofs.Calling

/-!
# The byte of a node

What a node of a resolved tree stands for is said of the tree alone: its byte comes from the bytes
of its children, with a text standing for its address and an identifier for the value of its symbol.
Code is drafted for the expression that a tree is read as, where nested sums are flattened and the
shape of nodes is checked. An expression that has code has the byte of its node, and the expressions
inside it are those of the nodes that are evaluated for the node.
-/

namespace OnePage

/-! ### Bytes of nodes -/

/-- The number that decimal digits stand for, given from the last to the first. -/
def Decimal.weigh : List Char → Nat
  | [] => 0
  | c :: cs => (c.toNat - '0'.toNat) + 10 * weigh cs

/-- The number that a token shows in decimal digits, perhaps after a plus sign, if it is a byte. -/
def Token.number? (token : Token) : Option UInt8 :=
  let shown := token.lexeme.toList
  let digits := if shown.head? = some '+' then shown.tail else shown
  if digits ≠ [] ∧ digits.all Char.isDigit ∧ Decimal.weigh digits.reverse < 256 then
    some (UInt8.ofNat (Decimal.weigh digits.reverse))
  else none

/-- What comparing some bytes gives, if there are two: one or zero, by whether they are equal for
the sign of equality and by whether they differ for any other. -/
def comparedBytes? (sign : String) : List UInt8 → Option UInt8
  | [x, y] => some (if x = y ↔ sign = "==" then 1 else 0)
  | _ => none

/-- The sum of some bytes around the byte. -/
def totalByte (bytes : List UInt8) : UInt8 := bytes.foldr (· + ·) 0

mutual

/-- The byte that a node stands for, if it stands for one: a text for its address, a digit for its
number, a truth value for one or zero, an identifier for the value of its symbol, a sum for the sum
of its children and a comparison for whether its two children are equal. -/
def Tree.byte? (address : String → UInt8) (values : SymbolId → UInt8) :
    Tree Resolved → Option UInt8
  | .node r children =>
    match r.node with
    | .leaf token =>
      match token.kind with
      | .intOp => (Forest.bytes? address values children).map totalByte
      | .boolOp => (Forest.bytes? address values children).bind (comparedBytes? token.lexeme)
      | .digit => token.number?
      | .boolVal => some (if token.lexeme = "true" then 1 else 0)
      | .identifier => r.symbol.map values
      | _ => none
    | .literal text _ => some (address text)
    | .branch _ => none

/-- The bytes that some nodes stand for, if all of them do. -/
def Forest.bytes? (address : String → UInt8) (values : SymbolId → UInt8) :
    Forest Resolved → Option (List UInt8)
  | [] => some []
  | t :: ts =>
    (Tree.byte? address values t).bind fun x ↦ (Forest.bytes? address values ts).map (x :: ·)

end

/-! ### Nodes that are evaluated -/

namespace Resolved

/-- The node adds its children. -/
def isSum (r : Resolved) : Bool := r.node.kind? == some .intOp

/-- The node compares its children. -/
def isComparison (r : Resolved) : Bool := r.node.kind? == some .boolOp

/-- The node tests whether its children are equal. -/
def isEquality (r : Resolved) : Bool := r.isComparison && r.node.text == "=="

private theorem exists_operator {r : Resolved} {kind : Kind}
    (h : (r.node.kind? == some kind) = true) :
    ∃ token, r.node = .leaf token ∧ token.kind = kind := by
  obtain ⟨node, symbol⟩ := r
  cases node with
  | branch p | literal text position => cases h
  | leaf token => exact ⟨token, rfl, by simpa [Node.kind?, Node.token?] using h⟩

end Resolved

mutual

/-- The terms of a node that is a sum, however it is nested; any other node is its one term. -/
def Tree.addends : Tree Resolved → Forest Resolved
  | .node r children => if r.isSum then Forest.addends children else [.node r children]

/-- The terms of some nodes. -/
def Forest.addends : Forest Resolved → Forest Resolved
  | [] => []
  | t :: ts => Tree.addends t ++ Forest.addends ts

end

mutual

/-- The nodes that are evaluated for the value of a node: the terms of a sum and the operands of a
comparison, each with those evaluated for it. A sum among the terms of a sum is not evaluated for
itself. -/
def Tree.within : Tree Resolved → Forest Resolved
  | .node r children =>
    if r.isSum then Forest.terms children
    else if r.isComparison then Forest.operands children
    else []

/-- The terms of some nodes, each with the nodes that are evaluated for it. -/
def Forest.terms : Forest Resolved → Forest Resolved
  | [] => []
  | t :: ts => (if t.label.isSum then Tree.within t else t :: Tree.within t) ++ Forest.terms ts

/-- Some nodes, each with those that are evaluated for it. -/
def Forest.operands : Forest Resolved → Forest Resolved
  | [] => []
  | t :: ts => t :: Tree.within t ++ Forest.operands ts

end

/-! ### Numbers -/

private theorem Decimal.value_eq_weigh (digits : List Char) :
    value digits = weigh digits.reverse := by
  have hfold (cs : List Char) :
      weigh cs = cs.foldr (fun c n ↦ 10 * n + (c.toNat - '0'.toNat)) 0 := by
    induction cs with
    | nil => rfl
    | cons c cs ih => rw [weigh, List.foldr_cons, ih, Nat.add_comm]
  rw [hfold, List.foldr_reverse, value]

private theorem Decimal.unsigned_eq (shown : List Char) :
    unsigned shown = if shown.head? = some '+' then shown.tail else shown := by
  unfold unsigned
  split
  · rfl
  · next hplus =>
    rw [if_neg]
    intro hhead
    cases shown with
    | nil => cases hhead
    | cons c cs => exact hplus cs (by rw [Option.some.inj hhead])

/-- The number that a token shows is the one that its text is read as. -/
theorem Token.number?_eq (token : Token) :
    token.number? = (Decimal.ofText? 256 token.lexeme).map UInt8.ofNat := by
  simp only [Token.number?, Decimal.ofText?, Decimal.value_eq_weigh, ← Decimal.unsigned_eq]
  generalize Decimal.unsigned token.lexeme.toList = digits
  by_cases hdigits : digits ≠ [] ∧ digits.all Char.isDigit
  · have hshape : ¬ (digits.isEmpty || !digits.all Char.isDigit) = true := by
      simpa using hdigits
    rw [if_neg hshape]
    by_cases hlt : Decimal.weigh digits.reverse < 256
    · rw [if_pos hlt, if_pos ⟨hdigits.1, hdigits.2, hlt⟩, Option.map_some]
    · rw [if_neg hlt, if_neg fun h ↦ hlt h.2.2, Option.map_none]
  · have hshape : (digits.isEmpty || !digits.all Char.isDigit) = true := by
      by_contra hnot
      exact hdigits (by simpa using hnot)
    rw [if_pos hshape, if_neg fun h ↦ hdigits ⟨h.1, h.2.1⟩, Option.map_none]

/-! ### Expressions of nodes -/

namespace Expr

/-- The expression has code: it is none of those that stand for an error. -/
def IsValue : Expr → Prop
  | .oddCompare _ | .invalid _ => False
  | _ => True

/-- The expression and all those inside it have code. -/
def Sound (e : Expr) : Prop := e.IsValue ∧ ∀ part ∈ e.parts, part.IsValue

/-- A sum is read as the sum of all terms of its children. -/
theorem ofTree_of_isSum {r : Resolved} (h : r.isSum = true) (children : Forest Resolved) :
    ofTree (.node r children) = sumAll r.node.text ((ofTrees children).flatMap terms) := by
  obtain ⟨token, hnode, hkind⟩ := Resolved.exists_operator h
  simp only [ofTree, hnode, hkind, Node.text]

/-- A comparison is read as the comparison of what its children are read as. -/
theorem ofTree_of_isComparison {r : Resolved} (h : r.isComparison = true)
    (children : Forest Resolved) :
    ofTree (.node r children) = compareAll r.node.text (ofTrees children) := by
  obtain ⟨token, hnode, hkind⟩ := Resolved.exists_operator h
  simp only [ofTree, hnode, hkind, Node.text]

/-- A text literal is read as its text. -/
theorem ofTree_literal {t : Tree Resolved} {s : String} {position : Position}
    (h : t.label.node = .literal s position) : ofTree t = .text s := by
  obtain ⟨⟨node, symbol⟩, children⟩ := t
  cases h
  rw [ofTree]

/-- A node that is no operation is printed as it is, unless it is no expression. -/
theorem ofTree_plain {r : Resolved} (hsum : r.isSum = false) (hcompare : r.isComparison = false)
    (children : Forest Resolved) : (ofTree (.node r children)).isPrintable = true ∨
      ∃ err, ofTree (.node r children) = .invalid err := by
  obtain ⟨node, symbol⟩ := r
  cases node with
  | branch p => exact .inr ⟨_, by rw [ofTree]⟩
  | literal text position => exact .inl (by rw [ofTree, isPrintable])
  | leaf token =>
    have hints : token.kind ≠ .intOp := by
      simpa [Resolved.isSum, Node.kind?, Node.token?] using hsum
    have hbools : token.kind ≠ .boolOp := by
      simpa [Resolved.isComparison, Node.kind?, Node.token?] using hcompare
    have hread : ofTree (.node ⟨.leaf token, symbol⟩ children) = ofToken token symbol := by
      rw [ofTree]
      split <;> simp_all
    rw [hread]
    unfold ofToken
    split
    · split
      · exact .inl rfl
      · exact .inr ⟨_, rfl⟩
    · exact .inl rfl
    · split
      · exact .inl rfl
      · exact .inr ⟨_, rfl⟩
    · exact .inr ⟨_, rfl⟩

/-- What is no operation has no expressions inside it, is its own term and is no equality. -/
theorem plain_of_isPrintable {e : Expr} (h : e.isPrintable = true ∨ ∃ err, e = .invalid err) :
    e.parts = [] ∧ e.terms = [e] ∧ e.isEquality = false := by
  rcases h with h | ⟨err, rfl⟩
  · cases e with
    | digit _ | flag _ | text _ | var _ _ => exact ⟨rfl, rfl, rfl⟩
    | sum _ _ | compare _ _ _ | oddCompare _ | invalid _ => cases h
  · exact ⟨rfl, rfl, rfl⟩

private theorem partsAll_eq (es : List Expr) : partsAll es = es.flatMap fun e ↦ e :: e.parts := by
  induction es with
  | nil => rfl
  | cons e es ih => rw [partsAll, List.flatMap_cons, List.cons_append, ih]

private theorem partsAll_append (es fs : List Expr) :
    partsAll (es ++ fs) = partsAll es ++ partsAll fs := by
  rw [partsAll_eq, partsAll_eq, partsAll_eq, List.flatMap_append]

private theorem parts_sumAll {operator : String} {es : List Expr}
    (h : (sumAll operator es).IsValue) :
    (sumAll operator es).parts = partsAll es ∧ (sumAll operator es).terms = es := by
  cases es with
  | nil => exact h.elim
  | cons first rest => exact ⟨rfl, rfl⟩

/-- A comparison that has a value has two operands. -/
theorem compareAll_of_isValue {operator : String} {es : List Expr}
    (h : (compareAll operator es).IsValue) : ∃ left right, es = [left, right] ∧
      compareAll operator es = .compare (operator == "==") left right := by
  unfold compareAll at h ⊢
  split at h
  · exact h.elim
  · exact ⟨_, _, rfl, rfl⟩
  · exact h.elim

private theorem parts_compareAll {operator : String} {es : List Expr}
    (h : (compareAll operator es).IsValue) : (compareAll operator es).parts = partsAll es := by
  obtain ⟨left, right, rfl, heq⟩ := compareAll_of_isValue h
  rw [heq, parts, partsAll, partsAll, partsAll, List.append_nil]
  rfl

/-- Terms that have code, with all that is in them, are those of an expression that has. -/
theorem sound_of_terms {e : Expr} (h : ∀ part ∈ partsAll e.terms, part.IsValue) : e.Sound := by
  cases e with
  | sum first rest => exact ⟨trivial, h⟩
  | digit _ | flag _ | text _ | var _ _ | compare _ _ _ | oddCompare _ | invalid _ =>
    simpa [terms, partsAll, Sound] using h

private theorem sound_of_partsAll {es : List Expr} (h : ∀ part ∈ partsAll es, part.IsValue)
    {e : Expr} (he : e ∈ es) : e.Sound := by
  rw [partsAll_eq] at h
  have hpart : ∀ part ∈ e :: e.parts, part.IsValue := fun part hmem ↦
    h part (List.mem_flatMap.mpr ⟨e, he, hmem⟩)
  exact List.forall_mem_cons.mp hpart

private theorem sound_of_flatMap_terms {es : List Expr}
    (h : ∀ part ∈ partsAll (es.flatMap terms), part.IsValue) {e : Expr} (he : e ∈ es) :
    e.Sound := by
  refine sound_of_terms fun part hpart ↦ h part ?_
  rw [partsAll_eq] at hpart ⊢
  rw [List.flatMap_assoc]
  exact List.mem_flatMap.mpr ⟨e, he, hpart⟩

/-- A sum among terms gives its terms, and anything else itself. -/
theorem partsAll_terms_ofTree {t : Tree Resolved} (h : (ofTree t).Sound) :
    partsAll (ofTree t).terms =
      if t.label.isSum then (ofTree t).parts else ofTree t :: (ofTree t).parts := by
  obtain ⟨r, children⟩ := t
  change _ = if r.isSum then _ else _
  by_cases hsum : r.isSum
  · rw [if_pos hsum]
    rw [ofTree_of_isSum hsum] at h ⊢
    rw [(parts_sumAll h.1).1, (parts_sumAll h.1).2]
  · have hterms : (ofTree (.node r children)).terms = [ofTree (.node r children)] := by
      by_cases hcompare : r.isComparison
      · rw [ofTree_of_isComparison hcompare] at h ⊢
        obtain ⟨left, right, _, heq⟩ := compareAll_of_isValue h.1
        rw [heq, terms]
        exact fun _ _ ↦ by simp
      · exact (plain_of_isPrintable (ofTree_plain (by simpa using hsum) (by simpa using hcompare)
          children)).2.1
    rw [if_neg hsum, hterms, partsAll, partsAll, List.append_nil]

end Expr

mutual

/-- The nodes evaluated for a node are read as the expressions inside its own. -/
theorem Tree.map_within (t : Tree Resolved) (h : (Expr.ofTree t).Sound) :
    t.within.map Expr.ofTree = (Expr.ofTree t).parts := by
  cases t with
  | node r children =>
    rw [Tree.within]
    by_cases hsum : r.isSum
    · rw [Expr.ofTree_of_isSum hsum] at h ⊢
      obtain ⟨hvalue, hparts⟩ := h
      rw [(Expr.parts_sumAll hvalue).1] at hparts ⊢
      rw [if_pos hsum]
      exact Forest.map_terms children hparts
    · rw [if_neg hsum]
      by_cases hcompare : r.isComparison
      · rw [if_pos hcompare]
        rw [Expr.ofTree_of_isComparison hcompare] at h ⊢
        obtain ⟨hvalue, hparts⟩ := h
        rw [Expr.parts_compareAll hvalue] at hparts ⊢
        exact Forest.map_operands children hparts
      · rw [if_neg hcompare]
        exact (Expr.plain_of_isPrintable (Expr.ofTree_plain (Bool.eq_false_iff.mpr hsum)
          (Bool.eq_false_iff.mpr hcompare) children)).1.symm

private theorem Forest.map_terms (ts : Forest Resolved)
    (h : ∀ part ∈ Expr.partsAll ((Expr.ofTrees ts).flatMap Expr.terms), part.IsValue) :
    (Forest.terms ts).map Expr.ofTree =
      Expr.partsAll ((Expr.ofTrees ts).flatMap Expr.terms) := by
  cases ts with
  | nil => rfl
  | cons t ts =>
    have hsound := Expr.sound_of_flatMap_terms h (List.mem_cons_self ..)
    rw [Expr.ofTrees, List.flatMap_cons, Expr.partsAll_append] at h ⊢
    rw [Forest.terms, List.map_append, Forest.map_terms ts (List.forall_mem_append.mp h).2,
      Expr.partsAll_terms_ofTree hsound]
    congr 1
    split
    · exact Tree.map_within t hsound
    · rw [List.map_cons, Tree.map_within t hsound]

private theorem Forest.map_operands (ts : Forest Resolved)
    (h : ∀ part ∈ Expr.partsAll (Expr.ofTrees ts), part.IsValue) :
    (Forest.operands ts).map Expr.ofTree = Expr.partsAll (Expr.ofTrees ts) := by
  cases ts with
  | nil => rfl
  | cons t ts =>
    have hsound := Expr.sound_of_partsAll h (List.mem_cons_self ..)
    rw [Expr.ofTrees, Expr.partsAll] at h ⊢
    obtain ⟨_, hrest⟩ := List.forall_mem_append.mp (List.forall_mem_cons.mp h).2
    rw [Forest.operands, List.map_append, List.map_cons, Tree.map_within t hsound,
      Forest.map_operands ts hrest, List.cons_append]

end

/-! ### Bytes of expressions -/

private theorem totalByte_cons (x : UInt8) (xs : List UInt8) :
    totalByte (x :: xs) = x + totalByte xs := rfl

private theorem totalByte_append (xs ys : List UInt8) :
    totalByte (xs ++ ys) = totalByte xs + totalByte ys := by
  induction xs with
  | nil => exact (UInt8.zero_add _).symm
  | cons x xs ih => rw [List.cons_append, totalByte_cons, totalByte_cons, ih, UInt8.add_assoc]

private theorem foldl_add_eq (x : UInt8) (xs : List UInt8) :
    xs.foldl (· + ·) x = x + totalByte xs := by
  induction xs generalizing x with
  | nil => exact (UInt8.add_zero x).symm
  | cons y ys ih => rw [List.foldl_cons, ih, totalByte_cons, UInt8.add_assoc]

namespace Expr

mutual

/-- The byte that an expression stands for: numbers and truth values for themselves, a text for its
address, a variable for its value, a sum for the sum of its terms around the byte, and a comparison
for one or zero by whether the bytes of its operands are equal. -/
def byte (address : String → UInt8) (values : SymbolId → UInt8) : Expr → UInt8
  | .digit n => n
  | .flag x => bit x
  | .text s => address s
  | .var symbol _ => values symbol
  | .sum first rest => (bytes address values rest).foldl (· + ·) (byte address values first)
  | .compare equal x y => bit ((byte address values x == byte address values y) == equal)
  | .oddCompare _ | .invalid _ => 0

/-- The bytes that some expressions stand for. -/
def bytes (address : String → UInt8) (values : SymbolId → UInt8) : List Expr → List UInt8
  | [] => []
  | e :: es => byte address values e :: bytes address values es

end

variable (address : String → UInt8) (values : SymbolId → UInt8)

private theorem bytes_eq_map (es : List Expr) :
    bytes address values es = es.map (byte address values) := by
  induction es with
  | nil => rfl
  | cons e es ih => rw [bytes, List.map_cons, ih]

/-- The byte of an expression is the total of its terms. -/
theorem totalByte_terms (e : Expr) :
    totalByte (bytes address values e.terms) = byte address values e := by
  cases e with
  | sum first rest => rw [terms, bytes, byte, foldl_add_eq, totalByte_cons]
  | digit _ | flag _ | text _ | var _ _ | compare _ _ _ | oddCompare _ | invalid _ =>
    exact UInt8.add_zero _

private theorem totalByte_flatMap_terms (es : List Expr) :
    totalByte (bytes address values (es.flatMap terms)) = totalByte (bytes address values es) := by
  induction es with
  | nil => rfl
  | cons e es ih =>
    rw [List.flatMap_cons, bytes_eq_map, List.map_append, totalByte_append, ← bytes_eq_map,
      ← bytes_eq_map, totalByte_terms, ih]
    rfl

/-- A sum has the total of what is added. -/
theorem byte_sumAll {operator : String} {es : List Expr}
    (h : (sumAll operator (es.flatMap terms)).IsValue) :
    byte address values (sumAll operator (es.flatMap terms)) =
      totalByte (bytes address values es) := by
  rw [← totalByte_flatMap_terms, ← totalByte_terms, (parts_sumAll h).2]

/-- A comparison has one or zero. -/
theorem byte_compareAll {operator : String} {es : List Expr}
    (h : (compareAll operator es).IsValue) :
    some (byte address values (compareAll operator es)) =
      comparedBytes? operator (bytes address values es) := by
  obtain ⟨left, right, rfl, heq⟩ := compareAll_of_isValue h
  rw [heq, byte, bytes, bytes, bytes, comparedBytes?]
  by_cases hsign : operator = "==" <;>
    by_cases hequal : byte address values left = byte address values right <;>
      simp [hsign, hequal, bit]

/-- A node that is no operation has the byte of its expression. -/
theorem byte?_plain {r : Resolved} (hsum : r.isSum = false) (hcompare : r.isComparison = false)
    (children : Forest Resolved) (h : (ofTree (.node r children)).IsValue) :
    Tree.byte? address values (.node r children) =
      some (byte address values (ofTree (.node r children))) := by
  obtain ⟨node, symbol⟩ := r
  cases node with
  | branch p =>
    rw [ofTree] at h
    exact h.elim
  | literal text position => rw [Tree.byte?, ofTree, byte]
  | leaf token =>
    rw [Tree.byte?]
    rw [ofTree] at h ⊢
    cases hkind : token.kind with
    | intOp => simp [Resolved.isSum, Node.kind?, Node.token?, hkind] at hsum
    | boolOp => simp [Resolved.isComparison, Node.kind?, Node.token?, hkind] at hcompare
    | digit =>
      simp only [hkind, ofToken, Token.number?_eq] at h ⊢
      cases hvalue : Decimal.ofText? 256 token.lexeme with
      | none =>
        rw [hvalue] at h
        exact h.elim
      | some n => rfl
    | boolVal =>
      simp only [hkind, ofToken, byte]
      by_cases htrue : token.lexeme = "true" <;> simp [htrue, bit]
    | identifier =>
      simp only [hkind, ofToken] at h ⊢
      cases symbol with
      | none => exact h.elim
      | some symbol => rfl
    | _ =>
      simp only [hkind, ofToken] at h
      exact h.elim

end Expr

private theorem Tree.byte?_of_isSum (address : String → UInt8) (values : SymbolId → UInt8)
    {r : Resolved} (h : r.isSum = true) (children : Forest Resolved) :
    Tree.byte? address values (.node r children) =
      (Forest.bytes? address values children).map totalByte := by
  obtain ⟨token, hnode, hkind⟩ := Resolved.exists_operator h
  simp only [Tree.byte?, hnode, hkind]

private theorem Tree.byte?_of_isComparison (address : String → UInt8) (values : SymbolId → UInt8)
    {r : Resolved} (h : r.isComparison = true) (children : Forest Resolved) :
    Tree.byte? address values (.node r children) =
      (Forest.bytes? address values children).bind (comparedBytes? r.node.text) := by
  obtain ⟨token, hnode, hkind⟩ := Resolved.exists_operator h
  simp only [Tree.byte?, hnode, hkind, Node.text]

mutual

/-- A node has the byte of its expression. -/
theorem Tree.byte?_eq (address : String → UInt8) (values : SymbolId → UInt8) (t : Tree Resolved)
    (h : (Expr.ofTree t).Sound) :
    t.byte? address values = some ((Expr.ofTree t).byte address values) := by
  cases t with
  | node r children =>
    by_cases hsum : r.isSum
    · rw [Tree.byte?_of_isSum address values hsum]
      rw [Expr.ofTree_of_isSum hsum] at h ⊢
      obtain ⟨hvalue, hparts⟩ := h
      rw [(Expr.parts_sumAll hvalue).1] at hparts
      rw [Forest.bytes?_eq address values children fun e ↦ Expr.sound_of_flatMap_terms hparts,
        Expr.byte_sumAll address values hvalue, Option.map_some]
    · by_cases hcompare : r.isComparison
      · rw [Tree.byte?_of_isComparison address values hcompare]
        rw [Expr.ofTree_of_isComparison hcompare] at h ⊢
        obtain ⟨hvalue, hparts⟩ := h
        rw [Expr.parts_compareAll hvalue] at hparts
        rw [Forest.bytes?_eq address values children fun e ↦ Expr.sound_of_partsAll hparts,
          Expr.byte_compareAll address values hvalue, Option.bind_some]
      · exact Expr.byte?_plain address values (by simpa using hsum) (by simpa using hcompare)
          children h.1

private theorem Forest.bytes?_eq (address : String → UInt8) (values : SymbolId → UInt8)
    (ts : Forest Resolved) (h : ∀ e ∈ Expr.ofTrees ts, e.Sound) :
    Forest.bytes? address values ts = some (Expr.bytes address values (Expr.ofTrees ts)) := by
  cases ts with
  | nil => rfl
  | cons t ts =>
    obtain ⟨hfirst, hrest⟩ := List.forall_mem_cons.mp h
    rw [Forest.bytes?, Tree.byte?_eq address values t hfirst,
      Forest.bytes?_eq address values ts hrest]
    rfl

end

/-! ### Nested sums -/

section Sums

variable (address : String → UInt8) (values : SymbolId → UInt8)

private theorem Forest.bytes?_append (ts us : Forest Resolved) :
    Forest.bytes? address values (ts ++ us) =
    (Forest.bytes? address values ts).bind fun xs ↦
      (Forest.bytes? address values us).map (xs ++ ·) := by
  induction ts with
  | nil => simp [Forest.bytes?]
  | cons t ts ih =>
    rw [List.cons_append, Forest.bytes?, Forest.bytes?, ih]
    cases Tree.byte? address values t with
    | none => rfl
    | some x =>
      cases Forest.bytes? address values ts with
      | none => rfl
      | some xs => cases Forest.bytes? address values us <;> rfl

mutual

/-- The byte of a node is the total of its terms, however they are nested. -/
theorem Tree.byte?_addends (t : Tree Resolved) :
    t.byte? address values = (Forest.bytes? address values t.addends).map totalByte := by
  cases t with
  | node r children =>
    rw [Tree.addends]
    split
    · next hsum => rw [Tree.byte?_of_isSum address values hsum, Forest.bytes?_addends children]
    · rw [Forest.bytes?, Forest.bytes?]
      cases Tree.byte? address values (.node r children) with
      | none => rfl
      | some x => exact congrArg some (UInt8.add_zero x).symm

private theorem Forest.bytes?_addends (ts : Forest Resolved) :
    (Forest.bytes? address values ts).map totalByte =
      (Forest.bytes? address values (Forest.addends ts)).map totalByte := by
  cases ts with
  | nil => rfl
  | cons t ts =>
    have hfirst := Tree.byte?_addends t
    have hrest := Forest.bytes?_addends ts
    rw [Forest.bytes?, Forest.addends, Forest.bytes?_append, hfirst]
    cases Forest.bytes? address values t.addends with
    | none => rfl
    | some xs =>
      have htotal := congrArg (Option.map (totalByte xs + ·)) hrest
      simpa only [Option.map_some, Option.bind_some, Option.map_map, Function.comp_def,
        totalByte_cons, totalByte_append] using htotal

end

mutual

/-- No term of a node is a sum. -/
theorem Tree.isSum_of_mem_addends (t u : Tree Resolved) (h : u ∈ t.addends) :
    u.label.isSum = false := by
  cases t with
  | node r children =>
    rw [Tree.addends] at h
    split at h
    · exact Forest.isSum_of_mem_addends children u h
    · next hsum =>
      rw [List.mem_singleton.mp h]
      exact Bool.eq_false_iff.mpr hsum

private theorem Forest.isSum_of_mem_addends (ts : Forest Resolved) (u : Tree Resolved)
    (h : u ∈ Forest.addends ts) : u.label.isSum = false := by
  cases ts with
  | nil => cases h
  | cons t ts =>
    exact (List.mem_append.mp h).elim (Tree.isSum_of_mem_addends t u)
      (Forest.isSum_of_mem_addends ts u)

end

end Sums

end OnePage
