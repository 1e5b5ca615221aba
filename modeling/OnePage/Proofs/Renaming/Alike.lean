import Mathlib.Data.List.Forall2
import OnePage.Compile

/-!
# Two runs side by side

What it means that two runs go the same way: both succeed or both fail, with results, errors and
states that correspond. Trees correspond if they have one shape and correspond node by node, and
errors if they differ only in the names, texts and places that they cite.
-/

namespace OnePage

/-! ### Steps -/

section Steps

variable {ε σ α β γ δ : Type} {S : σ → σ → Prop} {E : ε → ε → Prop} {V : α → β → Prop}
  {W : γ → δ → Prop}

/-- Two outcomes of steps correspond. -/
inductive OutcomesAlike (S : σ → σ → Prop) (E : ε → ε → Prop) (V : α → β → Prop) :
    EStateM.Result ε σ α → EStateM.Result ε σ β → Prop where
  | ok {a : α} {b : β} {s t : σ} : V a b → S s t → OutcomesAlike S E V (.ok a s) (.ok b t)
  | error {e f : ε} {s t : σ} : E e f → S s t → OutcomesAlike S E V (.error e s) (.error f t)

/-- From states that correspond, two steps have outcomes that correspond. -/
def StepsAlike (S : σ → σ → Prop) (E : ε → ε → Prop) (V : α → β → Prop) (x : EStateM ε σ α)
    (y : EStateM ε σ β) : Prop :=
  ∀ s t, S s t → OutcomesAlike S E V (x.run s) (y.run t)

namespace StepsAlike

/-- Steps that only give values correspond if the values do. -/
theorem pure {a : α} {b : β} (h : V a b) :
    StepsAlike S E V (pure a : EStateM ε σ α) (pure b) :=
  fun _ _ hs ↦ .ok h hs

/-- Steps that fail correspond if their errors do. -/
theorem throw {e f : ε} (h : E e f) :
    StepsAlike S E V (throw e : EStateM ε σ α) (throw f : EStateM ε σ β) :=
  fun _ _ hs ↦ .error h hs

/-- Steps correspond if they begin alike and go on alike from values that correspond. -/
theorem bind {x : EStateM ε σ α} {y : EStateM ε σ β} {f : α → EStateM ε σ γ}
    {g : β → EStateM ε σ δ} (hx : StepsAlike S E V x y)
    (hf : ∀ a b, V a b → StepsAlike S E W (f a) (g b)) :
    StepsAlike S E W (x >>= f) (y >>= g) := by
  intro s t hs
  have hmid := hx s t hs
  rw [EStateM.run_bind, EStateM.run_bind]
  generalize x.run s = first, y.run t = second at hmid
  cases hmid with
  | ok hab hs' => exact hf _ _ hab _ _ hs'
  | error he hs' => exact .error he hs'

/-- Going on from equal results. -/
theorem next {x y : EStateM ε σ α} {f : α → EStateM ε σ γ} {g : α → EStateM ε σ δ}
    (hx : StepsAlike S E Eq x y) (hf : ∀ a, StepsAlike S E W (f a) (g a)) :
    StepsAlike S E W (x >>= f) (y >>= g) := by
  refine hx.bind fun a b hab ↦ ?_
  subst hab
  exact hf a

/-- The states looked at correspond. -/
theorem get : StepsAlike S E S (get : EStateM ε σ σ) get := fun _ _ hs ↦ .ok hs hs

/-- Steps that set states correspond if the states do. -/
theorem set {s t : σ} (h : S s t) :
    StepsAlike S E Eq (set s : EStateM ε σ PUnit) (set t) :=
  fun _ _ _ ↦ .ok rfl h

/-- Changes of the state correspond if they take corresponding states to corresponding ones. -/
theorem modify {f g : σ → σ} (h : ∀ s t, S s t → S (f s) (g t)) :
    StepsAlike S E Eq (modify f : EStateM ε σ PUnit) (modify g) :=
  fun s t hs ↦ .ok rfl (h s t hs)

/-- Changes that give values correspond if both their values and their states do. -/
theorem modifyGet {f : σ → α × σ} {g : σ → β × σ}
    (h : ∀ s t, S s t → V (f s).1 (g t).1 ∧ S (f s).2 (g t).2) :
    StepsAlike S E V (modifyGet f : EStateM ε σ α) (modifyGet g) :=
  fun s t hs ↦ .ok (h s t hs).1 (h s t hs).2

/-- Steps that correspond do so without their values. -/
theorem discard {x : EStateM ε σ α} {y : EStateM ε σ β} (h : StepsAlike S E V x y) :
    StepsAlike S E Eq (discard x) (discard y) := by
  intro s t hs
  have hrun := h s t hs
  change OutcomesAlike S E Eq (EStateM.map (fun _ ↦ PUnit.unit) x s)
    (EStateM.map (fun _ ↦ PUnit.unit) y t)
  unfold EStateM.run at hrun
  unfold EStateM.map
  generalize x s = first, y t = second at hrun
  cases hrun with
  | ok _ hs' => exact .ok rfl hs'
  | error he hs' => exact .error he hs'

end StepsAlike

end Steps

/-! ### Results -/

section Results

variable {ε α β : Type} {E : ε → ε → Prop} {V : α → β → Prop}

/-- Two results correspond. -/
inductive ResultsAlike (E : ε → ε → Prop) (V : α → β → Prop) :
    Except ε α → Except ε β → Prop where
  | ok {a : α} {b : β} : V a b → ResultsAlike E V (.ok a) (.ok b)
  | error {e f : ε} : E e f → ResultsAlike E V (.error e) (.error f)

end Results

/-! ### Trees -/

section Trees

variable {α β : Type}

mutual

/-- Two trees have one shape, and each subtree of one corresponds to that of the other. -/
inductive Tree.Alike (R : Tree α → Tree β → Prop) : Tree α → Tree β → Prop where
  | node {a : α} {b : β} {ts : Forest α} {us : Forest β} : R (.node a ts) (.node b us) →
      Forest.Alike R ts us → Tree.Alike R (.node a ts) (.node b us)

inductive Forest.Alike (R : Tree α → Tree β → Prop) : Forest α → Forest β → Prop where
  | nil : Forest.Alike R [] []
  | cons {t : Tree α} {u : Tree β} {ts : Forest α} {us : Forest β} : Tree.Alike R t u →
      Forest.Alike R ts us → Forest.Alike R (t :: ts) (u :: us)

end

variable {R : Tree α → Tree β → Prop} {t : Tree α} {u : Tree β}

/-- The roots of trees that are alike correspond. -/
theorem Tree.Alike.root (h : Tree.Alike R t u) : R t u := by
  cases h with
  | node hroot _ => exact hroot

/-- The children of trees that are alike are alike. -/
theorem Tree.Alike.children (h : Tree.Alike R t u) : Forest.Alike R t.children u.children := by
  cases h with
  | node _ hchildren => exact hchildren

/-- Forests are alike if they consist of parts that are. -/
theorem Forest.Alike.append {ts xs : Forest α} {us ys : Forest β} (h : Forest.Alike R ts us)
    (k : Forest.Alike R xs ys) : Forest.Alike R (ts ++ xs) (us ++ ys) := by
  cases h with
  | nil => exact k
  | cons ht hts => exact .cons ht (hts.append k)

/-- Two trees that are alike make forests that are. -/
theorem Forest.Alike.single (h : Tree.Alike R t u) : Forest.Alike R [t] [u] := .cons h .nil

end Trees

/-! ### Errors -/

/-- The error without the token and the place that it cites. -/
def ParseError.bare : ParseError → ParseError
  | unexpectedToken expected _ _ => unexpectedToken expected "" .nowhere
  | unexpectedEnd expected => unexpectedEnd expected

/-- The error without the name and the place that it cites. -/
def AnalysisError.bare : AnalysisError → AnalysisError
  | duplicateDeclaration _ _ _ => duplicateDeclaration "" .nowhere 0
  | unresolvedIdentifier _ _ => unresolvedIdentifier "" .nowhere
  | typeMismatch expected found _ => typeMismatch expected found .nowhere
  | emptyTree => emptyTree

/-- The error without the name or node that it cites. -/
def CodeError.bare : CodeError → CodeError
  | unresolvedSymbol _ => unresolvedSymbol ""
  | malformed _ => malformed ""
  | outOfMemory => outOfMemory

end OnePage
