import OnePage.Proofs.Layout
import OnePage.Proofs.Regions

/-!
# Putting a draft on an image

Each line of a draft adds its cells to the code of an image and its texts to the texts. Each text is
on the image once, and the texts are a stack, the latest lowest, so the address of each follows from
the sizes of those before it and never changes.
-/

namespace OnePage

/-- The text that is an instruction's operand, if one is. -/
def Instruction.text? (i : Code) : Option String :=
  match i.operand with
  | .value (.text text) => some text
  | _ => none

/-- The texts a line asks for. -/
def Line.texts : Line → List String
  | .note _ _ => []
  | .place text => [text]
  | .code i => i.text?.toList

/-- The cells of some lines whose texts have the given addresses. -/
def Line.symbolic (address : String → UInt8) (lines : List Line) : List Cell :=
  (lines.filterMap Line.code?).flatMap (Instruction.symbolic address)

/-- An instruction's cells depend only on the address of its own text. -/
theorem Instruction.symbolic_congr {address other : String → UInt8} (i : Code)
    (h : ∀ text ∈ i.text?, address text = other text) :
    i.symbolic address = i.symbolic other := by
  cases i with
  | lda v | ldx v | ldy v | bne v =>
    cases v with
    | text text => simp [symbolic, cells, operand, h text rfl]
    | _ => rfl
  | _ => rfl

namespace Assembly

/-- The address of a text in a table of texts. -/
def address (texts : List (String × UInt8)) (text : String) : UInt8 :=
  (texts.lookup text).getD 0

/-- The cells of the texts of a table. -/
def heapCells (texts : List (String × UInt8)) : List Cell :=
  texts.flatMap fun entry ↦ Image.textCells entry.1

/-- Each text of the table lies right below those before it, and none is there twice. -/
def Stacked : List (String × UInt8) → Prop
  | [] => True
  | (text, a) :: older =>
    a.toNat + (heapCells ((text, a) :: older)).length = 256 ∧ older.lookup text = none ∧
      Stacked older

/-- The image holds the given code cells and exactly the texts of the table. -/
structure Filled (s : Assembly) (code : List Cell) : Prop where
  regions : s.image.Regions code (heapCells s.texts)
  stacked : Stacked s.texts

/-- The texts of one state have the same addresses in another. -/
def KeepsTexts (s t : Assembly) : Prop :=
  ∀ text a, s.texts.lookup text = some a → t.texts.lookup text = some a

private theorem KeepsTexts.refl (s : Assembly) : KeepsTexts s s := fun _ _ h ↦ h

private theorem KeepsTexts.trans {s t u : Assembly} (h : KeepsTexts s t) (k : KeepsTexts t u) :
    KeepsTexts s u :=
  fun text a ha ↦ k text a (h text a ha)

/-- The assembly starts with nothing on the image. -/
theorem filled_start : Filled start [] := ⟨Image.regions_blank, trivial⟩

/-- What is said has no part in what is filled. -/
theorem Filled.withEvents {s : Assembly} {code : List Cell} (h : Filled s code)
    (events : Array Event) : Filled { s with events } code := ⟨h.regions, h.stacked⟩

/-- Interning gives the address of a text and leaves the code as it is. -/
theorem intern_ok {text : String} {s t : Assembly} {code : List Cell} {a : UInt8}
    (hs : Filled s code) (h : (intern text).run s = .ok a t) :
    Filled t code ∧ KeepsTexts s t ∧ t.texts.lookup text = some a := by
  unfold intern at h
  rw [EStateM.run_bind, EStateM.run_get] at h
  dsimp only at h
  cases hl : s.texts.lookup text with
  | some known =>
    rw [hl] at h
    cases h
    exact ⟨hs, .refl s, hl⟩
  | none =>
    rw [hl] at h
    cases ha : s.image.allocate? text with
    | none =>
      rw [ha] at h
      cases h
    | some placed =>
      obtain ⟨fresh, image⟩ := placed
      rw [ha] at h
      cases h
      obtain ⟨hregions, hfresh⟩ := hs.regions.allocate ha
      refine ⟨⟨hregions, ?_, hl, hs.stacked⟩, ?_, ?_⟩
      · rw [hfresh]
        exact hregions.top
      · intro other b hb
        have hne : other ≠ text := by
          rintro rfl
          rw [hl] at hb
          cases hb
        simpa [List.lookup_cons, beq_false_of_ne hne] using hb
      · simp

/-- Interning fails only for want of room. -/
theorem intern_error {text : String} {s t : Assembly} {e : CodeError}
    (h : (intern text).run s = .error e t) : e = .outOfMemory := by
  unfold intern at h
  rw [EStateM.run_bind, EStateM.run_get] at h
  dsimp only at h
  cases hl : s.texts.lookup text with
  | some known =>
    rw [hl] at h
    cases h
  | none =>
    rw [hl] at h
    cases ha : s.image.allocate? text with
    | none =>
      rw [ha] at h
      cases h
      rfl
    | some placed =>
      rw [ha] at h
      cases h

/-- The cells of an instruction are its symbolic cells, with its text on the page. -/
theorem cellsOf_ok {i : Code} {s t : Assembly} {code cells : List Cell} (hs : Filled s code)
    (h : (cellsOf i).run s = .ok cells t) :
    Filled t code ∧ KeepsTexts s t ∧ (∀ text ∈ i.text?, (t.texts.lookup text).isSome) ∧
      cells = i.symbolic (address t.texts) := by
  unfold cellsOf at h
  unfold Instruction.text? Instruction.symbolic Instruction.cells
  cases ho : i.operand with
  | none =>
    rw [ho] at h
    cases h
    exact ⟨hs, .refl s, by simp, rfl⟩
  | address slot =>
    rw [ho] at h
    cases h
    exact ⟨hs, .refl s, by simp, rfl⟩
  | value v =>
    rw [ho] at h
    cases v with
    | const byte =>
      cases h
      exact ⟨hs, .refl s, by simp, rfl⟩
    | jump index =>
      cases h
      exact ⟨hs, .refl s, by simp, rfl⟩
    | text text =>
      obtain ⟨cell, mid, hcell, hpure⟩ := run_bind_eq_ok.mp h
      obtain ⟨a, mid', hintern, hcell'⟩ := run_bind_eq_ok.mp hcell
      cases hcell'
      cases hpure
      obtain ⟨hfilled, hkeeps, hlookup⟩ := intern_ok hs hintern
      refine ⟨hfilled, hkeeps, ?_, ?_⟩
      · intro other hother
        cases hother
        rw [hlookup]
        rfl
      · simp [address, hlookup]

/-- Finding the cells of an instruction fails only for want of room. -/
theorem cellsOf_error {i : Code} {s t : Assembly} {e : CodeError}
    (h : (cellsOf i).run s = .error e t) : e = .outOfMemory := by
  unfold cellsOf at h
  cases ho : i.operand with
  | none | address slot =>
    rw [ho] at h
    cases h
  | value v =>
    rw [ho] at h
    rcases run_bind_eq_error.mp h with hcell | ⟨_, _, _, hpure⟩
    · cases v with
      | const byte | jump index => cases hcell
      | text text =>
        rcases run_bind_eq_error.mp hcell with hintern | ⟨_, _, _, hpure⟩
        · exact intern_error hintern
        · cases hpure
    · cases hpure

/-- Writing appends code cells and leaves the texts as they are. -/
theorem write_ok {cells code : List Cell} {s t : Assembly} (hs : Filled s code)
    (h : (write cells).run s = .ok () t) : Filled t (code ++ cells) ∧ t.texts = s.texts := by
  unfold write at h
  rw [EStateM.run_bind, EStateM.run_get] at h
  dsimp only at h
  cases hw : s.image.writeAll? cells with
  | none =>
    rw [hw] at h
    cases h
  | some image =>
    rw [hw] at h
    cases h
    exact ⟨⟨hs.regions.writeAll hw, hs.stacked⟩, rfl⟩

/-- Writing fails only for want of room. -/
theorem write_error {cells : List Cell} {s t : Assembly} {e : CodeError}
    (h : (write cells).run s = .error e t) : e = .outOfMemory := by
  unfold write at h
  rw [EStateM.run_bind, EStateM.run_get] at h
  dsimp only at h
  cases hw : s.image.writeAll? cells with
  | none =>
    rw [hw] at h
    cases h
    rfl
  | some image =>
    rw [hw] at h
    cases h

/-- A line of code finds its cells, may be announced, and is written. -/
theorem run_line_code (i : Code) (s : Assembly) :
    ∃ said : List Cell → Assembly → Array Event, (line (.code i)).run s =
      (cellsOf i >>= fun cells ↦ modify (fun t ↦ { t with events := said cells t }) >>= fun _ ↦
        write cells).run s := by
  simp only [line]
  cases isAnnounced i with
  | true =>
    exact ⟨fun cells t ↦ t.events.push
      { phase := .codeGen, severity := .message, profile := .everything,
        text := " ".intercalate (cells.map Cell.text) }, rfl⟩
  | false => exact ⟨fun _ t ↦ t.events, rfl⟩

/-- A line adds its cells to the code, with its texts on the page. -/
theorem line_ok {l : Line} {s t : Assembly} {code : List Cell} (hs : Filled s code)
    (h : (line l).run s = .ok () t) :
    Filled t (code ++ Line.symbolic (address t.texts) [l]) ∧ KeepsTexts s t ∧
      ∀ text ∈ l.texts, (t.texts.lookup text).isSome := by
  cases l with
  | note profile text =>
    cases h
    refine ⟨?_, .refl s, by simp [Line.texts]⟩
    simpa [Line.symbolic, Line.code?, List.filterMap_cons] using hs.withEvents _
  | place text =>
    obtain ⟨a, mid, hintern, hpure⟩ := run_bind_eq_ok.mp
      (show (intern text >>= fun _ ↦ pure ()).run s = .ok () t from h)
    cases hpure
    obtain ⟨hfilled, hkeeps, hlookup⟩ := intern_ok hs hintern
    refine ⟨?_, hkeeps, ?_⟩
    · simpa [Line.symbolic, Line.code?, List.filterMap_cons] using hfilled
    · intro other hother
      rw [List.mem_singleton.mp hother, hlookup]
      rfl
  | code i =>
    obtain ⟨said, hline⟩ := run_line_code i s
    rw [hline] at h
    obtain ⟨cells, mid, hcells, hrest⟩ := run_bind_eq_ok.mp h
    obtain ⟨_, _, hsay, hwrite⟩ := run_bind_eq_ok.mp hrest
    cases hsay
    obtain ⟨hmid, hkeeps, htext, rfl⟩ := cellsOf_ok hs hcells
    obtain ⟨hfilled, htexts⟩ := write_ok (hmid.withEvents _) hwrite
    refine ⟨?_, ?_, ?_⟩
    · rw [htexts]
      simpa [Line.symbolic, Line.code?] using hfilled
    · intro text a ha
      rw [htexts]
      exact hkeeps text a ha
    · intro text hmem
      rw [htexts]
      exact htext text (by simpa [Line.texts] using hmem)

/-- A line fails only for want of room. -/
theorem line_error {l : Line} {s t : Assembly} {e : CodeError}
    (h : (line l).run s = .error e t) : e = .outOfMemory := by
  cases l with
  | note profile text => cases h
  | place text =>
    rcases run_bind_eq_error.mp
      (show (intern text >>= fun _ ↦ pure ()).run s = .error e t from h) with
      hintern | ⟨_, _, _, hpure⟩
    · exact intern_error hintern
    · cases hpure
  | code i =>
    obtain ⟨said, hline⟩ := run_line_code i s
    rw [hline] at h
    rcases run_bind_eq_error.mp h with hcells | ⟨cells, mid, _, hrest⟩
    · exact cellsOf_error hcells
    · rcases run_bind_eq_error.mp hrest with hsay | ⟨_, _, _, hwrite⟩
      · cases hsay
      · exact write_error hwrite

/-- Lines add their cells in order, at addresses that hold at the end. -/
theorem lines_ok {ls : List Line} {s t : Assembly} {code : List Cell} (hs : Filled s code)
    (h : (lines ls).run s = .ok () t) :
    Filled t (code ++ Line.symbolic (address t.texts) ls) ∧ KeepsTexts s t ∧
      ∀ l ∈ ls, ∀ text ∈ l.texts, (t.texts.lookup text).isSome := by
  induction ls generalizing s code with
  | nil =>
    cases h
    exact ⟨by simpa [Line.symbolic] using hs, .refl _, by simp⟩
  | cons l ls ih =>
    obtain ⟨_, mid, hl, hls⟩ := run_bind_eq_ok.mp
      (show (line l >>= fun _ ↦ lines ls).run s = .ok () t from h)
    obtain ⟨hmid, hkeeps, htexts⟩ := line_ok hs hl
    obtain ⟨ht, hkeeps', htexts'⟩ := ih hmid hls
    -- The texts of the first line have the same addresses at the end.
    have hlater (text : String) (hmem : text ∈ l.texts) :
        ∃ a, mid.texts.lookup text = some a ∧ t.texts.lookup text = some a := by
      obtain ⟨a, ha⟩ := Option.isSome_iff_exists.mp (htexts text hmem)
      exact ⟨a, ha, hkeeps' text a ha⟩
    have hcells : Line.symbolic (address mid.texts) [l] =
        Line.symbolic (address t.texts) [l] := by
      cases l with
      | note _ _ | place _ => rfl
      | code i =>
        have hi : i.symbolic (address mid.texts) = i.symbolic (address t.texts) := by
          apply Instruction.symbolic_congr
          intro text hmem
          obtain ⟨a, hm, ht⟩ := hlater text (by simpa [Line.texts] using hmem)
          rw [address, address, hm, ht]
        simp [Line.symbolic, Line.code?, hi]
    refine ⟨?_, hkeeps.trans hkeeps', ?_⟩
    · rw [hcells, List.append_assoc] at ht
      rw [show l :: ls = [l] ++ ls from rfl]
      simpa only [Line.symbolic, List.filterMap_append, List.flatMap_append] using ht
    · intro other hother text hmem
      rcases List.mem_cons.mp hother with rfl | hin
      · obtain ⟨a, _, ha⟩ := hlater text hmem
        rw [ha]
        rfl
      · exact htexts' other hin text hmem

/-- Lines fail only for want of room. -/
theorem lines_error {ls : List Line} {s t : Assembly} {e : CodeError}
    (h : (lines ls).run s = .error e t) : e = .outOfMemory := by
  induction ls generalizing s with
  | nil => cases h
  | cons l ls ih =>
    rcases run_bind_eq_error.mp
      (show (line l >>= fun _ ↦ lines ls).run s = .error e t from h) with
      hl | ⟨_, _, _, hls⟩
    · exact line_error hl
    · exact ih hls

end Assembly

end OnePage
