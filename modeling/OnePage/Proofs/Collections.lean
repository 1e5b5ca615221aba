/-!
# Lists and computations that may fail

Facts about lists, options and results that say nothing about programs: how a sequence of
computations succeeds or fails, what a step on every member of a list gives, and how lists are
searched, joined and split again.
-/

namespace OnePage

/-! ### Computations that may fail -/

/-- A sequence succeeds just if both of its parts do. -/
theorem bind_eq_ok {ε α β : Type} {x : Except ε α} {f : α → Except ε β} {b : β} :
    (x >>= f) = .ok b ↔ ∃ a, x = .ok a ∧ f a = .ok b := by
  cases x with
  | error e => exact ⟨fun h ↦ (nomatch h), fun ⟨_, h, _⟩ ↦ (nomatch h)⟩
  | ok a => exact ⟨fun h ↦ ⟨a, rfl, h⟩, fun ⟨_, ha, h⟩ ↦ by cases ha; exact h⟩

/-- What is there of a result that may be a failure is its success. -/
theorem eq_ok_of_toOption {ε α : Type} {x : Except ε α} {a : α} (h : x.toOption = some a) :
    x = .ok a := by
  cases x with
  | error e => cases h
  | ok b => exact congrArg Except.ok (Option.some.inj h)

/-- A step that succeeds as a sequence succeeds in its parts. -/
theorem run_bind_eq_ok {ε σ α β : Type} {x : EStateM ε σ α} {f : α → EStateM ε σ β}
    {s t : σ} {b : β} :
    (x >>= f).run s = .ok b t ↔ ∃ a mid, x.run s = .ok a mid ∧ (f a).run mid = .ok b t := by
  rw [EStateM.run_bind]
  cases x.run s with
  | ok a mid =>
    constructor
    · intro h
      exact ⟨a, mid, rfl, h⟩
    · rintro ⟨_, _, h, hf⟩
      cases h
      exact hf
  | error e mid => simp

/-- A step that fails as a sequence fails in one of its parts. -/
theorem run_bind_eq_error {ε σ α β : Type} {x : EStateM ε σ α}
    {f : α → EStateM ε σ β} {s t : σ} {e : ε} :
    (x >>= f).run s = .error e t ↔
      x.run s = .error e t ∨ ∃ a mid, x.run s = .ok a mid ∧ (f a).run mid = .error e t := by
  rw [EStateM.run_bind]
  cases x.run s with
  | ok a mid =>
    constructor
    · intro h
      exact .inr ⟨a, mid, rfl, h⟩
    · rintro (h | ⟨_, _, h, hf⟩)
      · cases h
      · cases h
        exact hf
  | error e mid => simp

/-! ### A step on every member of a list -/

/-- What a reader takes just if it is written so, it takes one after the other just if all are. -/
theorem mapM_eq_some_iff {γ δ : Type} {read : γ → Option δ} {write : δ → γ}
    (h : ∀ c d, read c = some d ↔ c = write d) {cs : List γ} {ds : List δ} :
    cs.mapM read = some ds ↔ cs = ds.map write := by
  induction cs generalizing ds with
  | nil => cases ds <;> simp
  | cons c cs ih =>
    rw [List.mapM_cons]
    cases ds with
    | nil => simp [Option.bind_eq_some_iff]
    | cons d ds =>
      have hrest := @ih ds
      simp [Option.bind_eq_some_iff, h, hrest]

/-- Where a step succeeds on every member of a list, it succeeds on each. -/
theorem mapM_eq_ok_getElem? {ε α β : Type} {f : α → Except ε β} {xs : List α} {ys : List β}
    (h : xs.mapM f = .ok ys) {k : Nat} {x : α} (hx : xs[k]? = some x) :
    ∃ y, f x = .ok y ∧ ys[k]? = some y := by
  induction xs generalizing ys k with
  | nil => cases hx
  | cons first xs ih =>
    rw [List.mapM_cons] at h
    cases hfirst : f first with
    | error e =>
      rw [hfirst] at h
      cases h
    | ok y =>
      cases hrest : xs.mapM f with
      | error e =>
        rw [hfirst, hrest] at h
        cases h
      | ok rest =>
        rw [hfirst, hrest] at h
        cases h
        cases k with
        | zero =>
          cases hx
          exact ⟨y, hfirst, rfl⟩
        | succ k => exact ih hrest hx

/-- Where a step succeeds on every member of a list, its results are those of a function that
agrees with it. -/
theorem mapM_eq_ok_map {ε α β : Type} {f : α → Except ε β} {g : α → β}
    (agree : ∀ a b, f a = .ok b → b = g a) {xs : List α} {ys : List β}
    (h : xs.mapM f = .ok ys) : ys = xs.map g := by
  induction xs generalizing ys with
  | nil =>
    cases h
    rfl
  | cons x xs ih =>
    rw [List.mapM_cons] at h
    cases hx : f x with
    | error e =>
      rw [hx] at h
      cases h
    | ok y =>
      cases hxs : xs.mapM f with
      | error e =>
        rw [hx, hxs] at h
        cases h
      | ok tail =>
        rw [hx, hxs] at h
        cases h
        rw [List.map_cons, ← agree x y hx, ← ih hxs]

/-- A step that fails on a list fails on one of its members. -/
theorem mapM_eq_error {ε α β : Type} {f : α → Except ε β} {e : ε} {xs : List α}
    (h : xs.mapM f = .error e) : ∃ x ∈ xs, f x = .error e := by
  induction xs with
  | nil => cases h
  | cons x xs ih =>
    rw [List.mapM_cons] at h
    cases hx : f x with
    | error e' =>
      rw [hx] at h
      cases h
      exact ⟨x, by simp, hx⟩
    | ok y =>
      cases hxs : xs.mapM f with
      | error e' =>
        rw [hx, hxs] at h
        cases h
        obtain ⟨z, hz, hf⟩ := ih hxs
        exact ⟨z, by simp [hz], hf⟩
      | ok tail =>
        rw [hx, hxs] at h
        cases h

/-- Mapping a step over a vector maps it over the list of its members. -/
theorem toList_mapM {ε α β : Type} {n : Nat} (f : α → Except ε β) (xs : Vector α n) :
    xs.toList.mapM f = (xs.mapM f).map Vector.toList := by
  have h : Vector.toArray <$> xs.mapM f = xs.toArray.mapM f := Vector.toArray_mapM
  rw [show xs.toArray = xs.toList.toArray from rfl, List.mapM_toArray] at h
  cases hv : xs.mapM f with
  | error e =>
    cases hl : xs.toList.mapM f with
    | error e' =>
      rw [hv, hl] at h
      cases h
      rfl
    | ok ys =>
      rw [hv, hl] at h
      cases h
  | ok v =>
    cases hl : xs.toList.mapM f with
    | error e' =>
      rw [hv, hl] at h
      cases h
    | ok ys =>
      rw [hv, hl] at h
      have hy : v.toArray = ys.toArray := Except.ok.inj h
      simp [Except.map, Vector.toList, hy]

/-! ### Lists -/

/-- What is found under a key is there with the key. -/
theorem mem_of_lookup {α β : Type} [BEq α] [LawfulBEq α] {key : α} {value : β}
    {entries : List (α × β)} (h : entries.lookup key = some value) : (key, value) ∈ entries := by
  obtain ⟨front, back, rfl, _⟩ := List.lookup_eq_some_iff.mp h
  simp

/-- Lists whose members are in two others are together in those together. -/
theorem append_subset_append {α : Type} {xs ys us vs : List α} (h : xs ⊆ us) (k : ys ⊆ vs) :
    xs ++ ys ⊆ us ++ vs :=
  List.append_subset.mpr
    ⟨List.subset_append_of_subset_left vs h, List.subset_append_of_subset_right us k⟩

/-- Two searches that agree on the members of a list find the same in it. -/
theorem findSome?_congr {α β : Type} {f g : α → Option β} {xs : List α}
    (h : ∀ x ∈ xs, f x = g x) : xs.findSome? f = xs.findSome? g := by
  induction xs with
  | nil => rfl
  | cons x xs ih =>
    rw [List.findSome?_cons, List.findSome?_cons, h x (List.mem_cons_self ..),
      ih fun y hy ↦ h y (List.mem_cons_of_mem x hy)]

/-- One more text counts if it is a new one. -/
theorem eraseDups_concat (seen : List String) (text : String) :
    (seen ++ [text]).eraseDups =
      if text ∈ seen then seen.eraseDups else seen.eraseDups ++ [text] := by
  rw [List.eraseDups_append]
  by_cases h : text ∈ seen
  · simp [List.removeAll, h]
  · simp [List.removeAll, h, List.eraseDups_cons]

/-- A sum of two numbers is the sum of the terms of both. -/
theorem foldl_add_append (k j : UInt8) (ks js : List UInt8) :
    (ks ++ j :: js).foldl (· + ·) k = ks.foldl (· + ·) k + js.foldl (· + ·) j := by
  induction js generalizing j with
  | nil => simp
  | cons i js ih =>
    rw [List.foldl_append, List.foldl_cons, List.foldl_cons, List.foldl_cons, UInt8.add_assoc,
      ← ih (j + i), List.foldl_append, List.foldl_cons]

/-- Where the elements with a property end is told by the list. -/
theorem append_inj_of_while {β : Type} {p : β → Bool} {xs ys us vs : List β}
    (hx : ∀ x ∈ xs, p x = true) (hy : ∀ y ∈ ys.head?, p y = false)
    (hu : ∀ u ∈ us, p u = true) (hv : ∀ v ∈ vs.head?, p v = false)
    (h : xs ++ ys = us ++ vs) : xs = us ∧ ys = vs := by
  have hnone : ∀ zs : List β, (∀ z ∈ zs.head?, p z = false) → zs.takeWhile p = [] := by
    intro zs hz
    cases zs with
    | nil => rfl
    | cons z zs => simp [hz z rfl]
  have hfirst : xs = us := by
    have htake := congrArg (List.takeWhile p) h
    rwa [List.takeWhile_append_of_pos hx, List.takeWhile_append_of_pos hu, hnone ys hy, hnone vs hv,
      List.append_nil, List.append_nil] at htake
  subst hfirst
  exact ⟨rfl, List.append_cancel_left h⟩

/-- Changing one element so that it gives one thing more gives one thing more in all. -/
theorem flatMap_modify_perm {α β : Type} {l : List α} {f : α → List β} {g : α → α} {i : Nat}
    {a : α} {b : β} (hi : l[i]? = some a) (h : (f (g a)).Perm (b :: f a)) :
    ((l.modify i g).flatMap f).Perm (b :: l.flatMap f) := by
  induction l generalizing i with
  | nil => cases hi
  | cons x l ih =>
    cases i with
    | zero =>
      cases hi
      exact h.append_right _
    | succ i =>
      rw [List.modify_succ_cons, List.flatMap_cons, List.flatMap_cons]
      exact ((ih hi).append_left _).trans List.perm_middle

/-- Groups of one size, one after the other, are the beginning of a list. -/
theorem flatMap_groups {β : Type} (xs : List β) (size count : Nat) :
    ((List.range count).flatMap fun i ↦ (xs.drop (size * i)).take size) =
      xs.take (size * count) := by
  induction count with
  | zero => simp
  | succ count ih =>
    rw [List.range_succ, List.flatMap_append, ih, List.flatMap_singleton, ← List.take_add,
      Nat.mul_succ]

/-! ### Separators -/

section Separators

variable {β : Type} {separator : List β}

/-- Joining two lists that are not empty puts one more separator between them. -/
theorem intercalate_append {xs ys : List (List β)} (hx : xs ≠ []) (hy : ys ≠ []) :
    separator.intercalate (xs ++ ys) =
      separator.intercalate xs ++ separator ++ separator.intercalate ys := by
  induction xs with
  | nil => exact absurd rfl hx
  | cons x xs ih =>
    cases xs with
    | nil =>
      obtain ⟨y, ys, rfl⟩ := List.exists_cons_of_ne_nil hy
      rw [List.singleton_append, List.intercalate_cons_cons, List.intercalate_singleton]
    | cons x' xs =>
      rw [List.cons_append, List.cons_append, List.intercalate_cons_cons, ← List.cons_append,
        ih (List.cons_ne_nil _ _), List.intercalate_cons_cons]
      simp only [List.append_assoc]

/-- Joining groups that are joined themselves joins all that is in them. -/
theorem intercalate_flatten (separator : List β) {groups : List (List (List β))}
    (h : ∀ group ∈ groups, group ≠ []) :
    separator.intercalate (groups.map separator.intercalate) =
      separator.intercalate groups.flatten := by
  induction groups with
  | nil => rfl
  | cons group groups ih =>
    obtain ⟨hgroup, hgroups⟩ := List.forall_mem_cons.mp h
    cases groups with
    | nil => simp [List.intercalate_singleton]
    | cons other groups =>
      have hflat : (other :: groups).flatten ≠ [] := by
        rw [List.flatten_cons]
        exact List.append_ne_nil_of_left_ne_nil (List.forall_mem_cons.mp hgroups).1 _
      rw [List.flatten_cons, intercalate_append hgroup hflat, ← ih hgroups, List.map_cons,
        List.map_cons, List.intercalate_cons_cons]

/-- What is in the joined list comes from the separator or from a part. -/
theorem mem_of_mem_intercalate {xs : List (List β)} {b : β} (h : b ∈ separator.intercalate xs) :
    b ∈ separator ∨ ∃ x ∈ xs, b ∈ x := by
  induction xs with
  | nil => cases h
  | cons x xs ih =>
    cases xs with
    | nil =>
      rw [List.intercalate_singleton] at h
      exact .inr ⟨x, List.mem_cons_self .., h⟩
    | cons x' xs =>
      rw [List.intercalate_cons_cons, List.mem_append, List.mem_append] at h
      rcases h with (hx | hseparator) | hrest
      · exact .inr ⟨x, List.mem_cons_self .., hx⟩
      · exact .inl hseparator
      · exact (ih hrest).imp_right fun hin ↦
          hin.imp fun _ hy ↦ ⟨List.mem_cons_of_mem _ hy.1, hy.2⟩

end Separators

end OnePage
