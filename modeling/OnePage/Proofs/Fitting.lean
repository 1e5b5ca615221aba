import OnePage.Proofs.Shielding

/-!
# What fits on the page

A draft has a size before it has a place: the bytes of its code, one byte for each slot, and the
bytes of its texts, each text counted once. It is assembled exactly if these are no more than the
page has, although code, slots and texts are put there at different times and from both ends.
-/

namespace OnePage

/-- The bytes that texts take on a page, a zero after each. -/
def textsSize (texts : List String) : Nat :=
  texts.foldr (fun text size ↦ text.utf8ByteSize + 1 + size) 0

/-- The texts a draft asks for, each once, in the order in which they are first asked for. -/
def Draft.texts (d : Draft) : List String := (d.lines.toList.flatMap Line.texts).eraseDups

/-- The bytes that a draft takes on a page: code, slots and texts. -/
def Draft.size (d : Draft) : Nat := d.codeSize + d.slots.size + textsSize d.texts

private theorem textsSize_append (texts more : List String) :
    textsSize (texts ++ more) = textsSize texts + textsSize more := by
  induction texts with
  | nil => simp [textsSize]
  | cons text texts ih =>
    simp only [textsSize, List.cons_append, List.foldr_cons] at ih ⊢
    rw [ih]
    omega

private theorem textsSize_reverse (texts : List String) :
    textsSize texts.reverse = textsSize texts := by
  induction texts with
  | nil => rfl
  | cons text texts ih =>
    rw [List.reverse_cons, textsSize_append, ih]
    simp only [textsSize, List.foldr_cons, List.foldr_nil]
    omega

/-- More texts take no less. -/
theorem textsSize_le (seen more : List String) :
    textsSize seen.eraseDups ≤ textsSize (seen ++ more).eraseDups := by
  rw [List.eraseDups_append, textsSize_append]
  exact Nat.le_add_right _ _

/-- Code cells for which there is room are written. -/
theorem Image.writeAll?_of_le {image : Image} {cells : List Cell}
    (h : image.position + cells.length ≤ image.heapStart) :
    ∃ next, image.writeAll? cells = some next := by
  induction cells generalizing image with
  | nil => exact ⟨image, rfl⟩
  | cons c cells ih =>
    rw [List.length_cons] at h
    have hlt : image.position < image.heapStart := by omega
    obtain ⟨next, hnext⟩ := @ih
      { image with
        cells := image.cells.setIfInBounds image.position c
        position := image.position + 1 } (by simpa using by omega)
    exact ⟨next, by rw [writeAll?, write?, if_pos hlt]; exact hnext⟩

namespace Assembly

/-- The texts on the page are those seen so far, each once, the latest first. -/
def Holds (s : Assembly) (seen : List String) : Prop :=
  s.texts.map Prod.fst = seen.eraseDups.reverse

/-- No text is on the page at the start. -/
theorem holds_start : Holds start [] := rfl

variable {s t : Assembly} {code : List Cell} {seen : List String} {text : String}

private theorem length_heapCells_eq (texts : List (String × UInt8)) :
    (heapCells texts).length = textsSize (texts.map Prod.fst) := by
  induction texts with
  | nil => rfl
  | cons entry texts ih =>
    rw [heapCells, List.flatMap_cons, List.length_append, Image.length_textCells]
    exact congrArg _ ih

/-- The texts on the page end at its top. -/
theorem Filled.heapStart (h : Filled s code) (hs : Holds s seen) :
    s.image.heapStart + textsSize seen.eraseDups = 256 := by
  rw [← h.regions.top, length_heapCells_eq, hs, textsSize_reverse]

/-- A text is on the page if it has been seen. -/
theorem Holds.lookup_eq_none (hs : Holds s seen) : s.texts.lookup text = none ↔ text ∉ seen := by
  have hmem : text ∈ s.texts.map Prod.fst ↔ text ∈ seen := by
    rw [hs, List.mem_reverse, List.mem_eraseDups]
  rw [← hmem, List.lookup_eq_none_iff, List.mem_map]
  constructor
  · rintro h ⟨entry, hentry, rfl⟩
    simpa using h entry hentry
  · intro h entry hentry
    simpa using fun he ↦ h ⟨entry, hentry, he.symm⟩

private theorem intern_holds {a : UInt8} (hs : Holds s seen) (h : (intern text).run s = .ok a t) :
    Holds t (seen ++ [text]) := by
  unfold intern at h
  rw [EStateM.run_bind, EStateM.run_get] at h
  dsimp only at h
  cases hl : s.texts.lookup text with
  | some known =>
    have hmem : text ∈ s.texts.map Prod.fst := List.mem_map_of_mem (mem_of_lookup hl)
    rw [hs, List.mem_reverse, List.mem_eraseDups] at hmem
    rw [hl] at h
    cases h
    rw [Holds, eraseDups_concat, if_pos hmem]
    exact hs
  | none =>
    rw [hl] at h
    cases ha : s.image.allocate? text with
    | none =>
      rw [ha] at h
      cases h
    | some placed =>
      rw [ha] at h
      cases h
      rw [Holds, eraseDups_concat, if_neg (hs.lookup_eq_none.mp hl), List.reverse_append]
      exact congrArg (text :: ·) hs

/-- A text is put on the page if it still fits there with all others. -/
theorem intern_of_le (h : Filled s code) (hs : Holds s seen)
    (hroom : s.image.position + textsSize (seen ++ [text]).eraseDups ≤ 256)
    (hlow : textsSize (seen ++ [text]).eraseDups < 256) :
    ∃ a t, (intern text).run s = .ok a t := by
  unfold intern
  rw [EStateM.run_bind, EStateM.run_get]
  dsimp only
  cases hl : s.texts.lookup text with
  | some known => exact ⟨known, s, rfl⟩
  | none =>
    have htop := h.heapStart hs
    rw [eraseDups_concat, if_neg (hs.lookup_eq_none.mp hl), textsSize_append] at hroom hlow
    have hone : textsSize [text] = (Image.textCells text).length :=
      (Image.length_textCells text).symm
    have hfits : (Image.textCells text).length ≤ s.image.heapStart - s.image.position ∧
        (Image.textCells text).length < s.image.heapStart := by
      constructor <;> omega
    simp only [Image.allocate?, if_pos hfits]
    exact ⟨_, _, rfl⟩

private theorem cellsOf_holds {i : Code} {cells : List Cell} (hs : Holds s seen)
    (h : (cellsOf i).run s = .ok cells t) : Holds t (seen ++ i.text?.toList) := by
  unfold cellsOf at h
  unfold Instruction.text?
  cases ho : i.operand with
  | none | address slot =>
    rw [ho] at h
    cases h
    simpa using hs
  | value v =>
    rw [ho] at h
    cases v with
    | const byte | jump index =>
      cases h
      simpa using hs
    | text text =>
      obtain ⟨cell, mid, hcell, hpure⟩ := run_bind_eq_ok.mp h
      obtain ⟨a, last, hintern, hcell'⟩ := run_bind_eq_ok.mp hcell
      cases hcell'
      cases hpure
      exact intern_holds hs hintern

/-- An instruction has its cells if its text still fits on the page. -/
theorem cellsOf_of_le {i : Code} (h : Filled s code) (hs : Holds s seen)
    (hroom : s.image.position + textsSize (seen ++ i.text?.toList).eraseDups ≤ 256)
    (hlow : textsSize (seen ++ i.text?.toList).eraseDups < 256) :
    ∃ cells t, (cellsOf i).run s = .ok cells t := by
  unfold cellsOf
  unfold Instruction.text? at hroom hlow
  cases ho : i.operand with
  | none | address slot => exact ⟨_, _, rfl⟩
  | value v =>
    rw [ho] at hroom hlow
    cases v with
    | const byte | jump index => exact ⟨_, _, rfl⟩
    | text text =>
      obtain ⟨a, t, hintern⟩ := intern_of_le h hs hroom hlow
      exact ⟨_, t, run_bind_eq_ok.mpr
        ⟨_, t, run_bind_eq_ok.mpr ⟨a, t, hintern, rfl⟩, rfl⟩⟩

private theorem line_holds {l : Line} (hf : Filled s code) (hs : Holds s seen)
    (h : (line l).run s = .ok () t) : Holds t (seen ++ l.texts) := by
  cases l with
  | note profile text =>
    cases h
    rw [Line.texts, List.append_nil]
    exact hs
  | place text =>
    obtain ⟨a, mid, hintern, hpure⟩ := run_bind_eq_ok.mp
      (show (intern text >>= fun _ ↦ pure ()).run s = .ok () t from h)
    cases hpure
    exact intern_holds hs hintern
  | code i =>
    obtain ⟨said, hline⟩ := run_line_code i s
    rw [hline] at h
    obtain ⟨cells, mid, hcells, hrest⟩ := run_bind_eq_ok.mp h
    obtain ⟨_, _, hsay, hwrite⟩ := run_bind_eq_ok.mp hrest
    cases hsay
    have hmid := (cellsOf_ok hf hcells).1
    have htexts : t.texts = mid.texts := (write_ok (hmid.withEvents _) hwrite).2
    rw [Holds, htexts]
    exact cellsOf_holds hs hcells

/-- Lines have as many cells as bytes of code. -/
theorem length_symbolic (address : String → UInt8) (ls : List Line) :
    (Line.symbolic address ls).length = Instruction.size (ls.filterMap Line.code?) := by
  unfold Line.symbolic
  generalize ls.filterMap Line.code? = code
  induction code with
  | nil => rfl
  | cons i code ih =>
    rw [List.flatMap_cons, List.length_append, ih, Instruction.size_cons]
    exact congrArg (· + _) (i.length_cells _ _ _)

/-- Cells for which there is room are written. -/
theorem write_of_le {cells : List Cell}
    (h : s.image.position + cells.length ≤ s.image.heapStart) :
    ∃ t, (write cells).run s = .ok () t := by
  obtain ⟨image, himage⟩ := Image.writeAll?_of_le h
  refine ⟨{ s with image }, ?_⟩
  unfold write
  rw [EStateM.run_bind, EStateM.run_get]
  dsimp only
  rw [himage]
  rfl

/-- A line is put on the page if it still fits there. -/
theorem line_of_le {l : Line} (h : Filled s code) (hs : Holds s seen)
    (hroom : s.image.position + l.width + textsSize (seen ++ l.texts).eraseDups ≤ 256)
    (hlow : textsSize (seen ++ l.texts).eraseDups < 256) : ∃ t, (line l).run s = .ok () t := by
  cases l with
  | note profile text => exact ⟨_, rfl⟩
  | place text =>
    obtain ⟨a, t, hintern⟩ := intern_of_le h hs hroom hlow
    exact ⟨t, run_bind_eq_ok.mpr ⟨a, t, hintern, rfl⟩⟩
  | code i =>
    rw [Line.texts] at hroom hlow
    rw [Line.width] at hroom
    obtain ⟨cells, mid, hcells⟩ := cellsOf_of_le h hs (by omega) hlow
    obtain ⟨hfilled, -, -, hsymbolic⟩ := cellsOf_ok h hcells
    -- The cells are written above the same code, and below the text if it is a new one.
    have hposition : mid.image.position = s.image.position := by
      rw [hfilled.regions.position, h.regions.position]
    have htop := hfilled.heapStart (cellsOf_holds hs hcells)
    have hlength : cells.length = i.width := by
      rw [hsymbolic]
      exact i.length_cells _ _ _
    obtain ⟨said, hline⟩ := run_line_code i s
    obtain ⟨t, hwrite⟩ := @write_of_le { mid with events := said cells mid } cells (by
      dsimp only
      omega)
    rw [hline]
    exact ⟨t, run_bind_eq_ok.mpr ⟨cells, mid, hcells, run_bind_eq_ok.mpr ⟨(), _, rfl, hwrite⟩⟩⟩

/-- After some lines are assembled, their texts are on the page too. -/
theorem lines_holds {ls : List Line} (hf : Filled s code) (hs : Holds s seen)
    (h : (lines ls).run s = .ok () t) : Holds t (seen ++ ls.flatMap Line.texts) := by
  induction ls generalizing s code seen with
  | nil =>
    cases h
    simpa using hs
  | cons l ls ih =>
    obtain ⟨_, mid, hl, hls⟩ := run_bind_eq_ok.mp
      (show (line l >>= fun _ ↦ lines ls).run s = .ok () t from h)
    rw [List.flatMap_cons, ← List.append_assoc]
    exact ih (line_ok hf hl).1 (line_holds hf hs hl) hls

/-- Lines are put on the page if they fit there with all that is on it. As there is code on the
page, no text ends up at its first address, where none may be. -/
theorem lines_of_le {ls : List Line} (h : Filled s code) (hs : Holds s seen)
    (hcode : 0 < s.image.position + Instruction.size (ls.filterMap Line.code?))
    (hroom : s.image.position + Instruction.size (ls.filterMap Line.code?) +
      textsSize (seen ++ ls.flatMap Line.texts).eraseDups ≤ 256) :
    ∃ t, (lines ls).run s = .ok () t := by
  induction ls generalizing s code seen with
  | nil => exact ⟨s, rfl⟩
  | cons l ls ih =>
    have hsize : Instruction.size ((l :: ls).filterMap Line.code?) =
        l.width + Instruction.size (ls.filterMap Line.code?) := by
      rw [← Line.foldr_width, ← Line.foldr_width]
      rfl
    rw [hsize] at hcode hroom
    rw [List.flatMap_cons, ← List.append_assoc] at hroom
    have hle := textsSize_le (seen ++ l.texts) (ls.flatMap Line.texts)
    obtain ⟨mid, hl⟩ := line_of_le (l := l) h hs (by omega) (by omega)
    obtain ⟨hmid, -, -⟩ := line_ok h hl
    have hposition : mid.image.position = s.image.position + l.width := by
      rw [hmid.regions.position, List.length_append, ← h.regions.position, length_symbolic,
        ← Line.foldr_width]
      rfl
    obtain ⟨t, hls⟩ := ih hmid (line_holds h hs hl) (by omega) (by omega)
    exact ⟨t, run_bind_eq_ok.mpr ⟨(), mid, hl, hls⟩⟩

/-- The lines of a draft leave on the page what the slots can take. -/
theorem lines_sizes {d : Draft} {s : Assembly} (h : (lines d.lines.toList).run start = .ok () s) :
    s.image.position = d.codeSize ∧ s.image.heapStart + textsSize d.texts = 256 := by
  obtain ⟨hfilled, -, -⟩ := lines_ok filled_start h
  constructor
  · rw [hfilled.regions.position, List.nil_append, length_symbolic, d.codeSize_eq]
    rfl
  · exact hfilled.heapStart (lines_holds filled_start holds_start h)

/-- A draft that is assembled takes on the page what its size says. -/
theorem assemble_sizes {table : ScopeTable} {d : Draft} {exe : Executable}
    (h : (assemble table d none).run start = .ok exe s) :
    exe.codeLen = d.codeSize ∧ exe.staticLen = d.slots.size ∧
      exe.heapStart + textsSize d.texts = 256 ∧ d.size ≤ 256 := by
  obtain ⟨_, mid, hlines, hfinish⟩ := run_bind_eq_ok.mp
    (show (lines d.lines.toList >>= fun _ ↦ finish table d).run start = .ok exe s from h)
  obtain ⟨hposition, htop⟩ := lines_sizes hlines
  have hrun := run_finish table d mid
  split at hrun
  · obtain ⟨_, hrun⟩ := hrun
    rw [hrun] at hfinish
    cases hfinish
  · split at hrun
    · obtain ⟨_, hrun⟩ := hrun
      rw [hrun] at hfinish
      cases hfinish
    · obtain ⟨_, hrun⟩ := hrun
      rw [hrun] at hfinish
      cases hfinish
      refine ⟨hposition, rfl, htop, ?_⟩
      rw [Draft.size]
      omega

/-- A draft with settled operands and some code is assembled if the page has room for it. -/
theorem assemble_of_le {table : ScopeTable} {d : Draft} (settled : ∀ i ∈ d.code, d.Settles i)
    (hcode : 0 < d.codeSize) (h : d.size ≤ 256) :
    ∃ exe t, (assemble table d none).run start = .ok exe t := by
  rw [Draft.size] at h
  have hsize : 0 + Instruction.size (d.lines.toList.filterMap Line.code?) = d.codeSize := by
    rw [Nat.zero_add, d.codeSize_eq]
    rfl
  obtain ⟨mid, hlines⟩ := lines_of_le filled_start holds_start
    (show 0 < 0 + Instruction.size (d.lines.toList.filterMap Line.code?) by omega)
    (show 0 + Instruction.size (d.lines.toList.filterMap Line.code?) + textsSize d.texts ≤ 256 by
      omega)
  obtain ⟨hfilled, -, -⟩ := lines_ok filled_start hlines
  cases hfinish : (finish table d).run mid with
  | ok exe t =>
    exact ⟨exe, t, run_bind_eq_ok.mpr ⟨(), mid, hlines, hfinish⟩⟩
  | error e t =>
    have hroom := (finish_error hfilled settled hfinish).2
    obtain ⟨hposition, htop⟩ := lines_sizes hlines
    omega

/-- An assembly is reported as an executable just if it runs to it from the start. -/
theorem report_eq_ok {a : Assembling Executable} {exe : Executable} :
    (report a).result = .ok exe ↔ ∃ s, a.run start = .ok exe s := by
  rw [report]
  cases a.run start <;> simp

end Assembly

/-- From what scanning, parsing and analysing a source gives, an executable is generated exactly if
the program's code, slots and texts together are no more than the page has, and they are what the
executable is made of. If they are more, the page has no room. -/
theorem generate_ok_iff_size_le (source : String) (tokens : List Token) (program : Forest Node)
    (a : Analysis) (hscan : (Scan.ofSource source).result = .ok tokens)
    (hparse : (parse tokens).result = .ok program) (hanalyze : (analyze program).result = .ok a) :
    ∃ root d, a.tree = [root] ∧
      ((Stmt.ofTree root).draftProgram a.table).run {} = .ok () d ∧
      ((∃ exe, (generate a).result = .ok exe) ↔ d.size ≤ 256) ∧
      (∀ exe, (generate a).result = .ok exe → exe.codeLen = d.codeSize ∧
        exe.staticLen = d.slots.size ∧ exe.heapStart = 256 - textsSize d.texts) ∧
      (256 < d.size → (generate a).result = .error .outOfMemory) := by
  obtain ⟨root, htree, htyped⟩ := stages_typed hscan hparse hanalyze
  obtain ⟨d, hdraft⟩ := htyped.draftsProgram
  have hsizes : ∀ exe, (generate a).result = .ok exe → exe.codeLen = d.codeSize ∧
      exe.staticLen = d.slots.size ∧ exe.heapStart + textsSize d.texts = 256 ∧ d.size ≤ 256 := by
    intro exe h
    obtain ⟨s, hrun⟩ := Assembly.report_eq_ok.mp (generate_eq_report htree hdraft ▸ h)
    exact Assembly.assemble_sizes hrun
  refine ⟨root, d, htree, hdraft, ⟨?_, ?_⟩, ?_, ?_⟩
  · rintro ⟨exe, h⟩
    exact (hsizes exe h).2.2.2
  · intro h
    have hcode : 0 < d.codeSize := by
      obtain ⟨body, hcode, -⟩ := Stmt.draftProgram_closed hdraft
      rw [d.codeSize_eq, hcode, Instruction.size_append]
      exact Nat.lt_add_left _ (by decide)
    obtain ⟨exe, s, hrun⟩ :=
      Assembly.assemble_of_le (Stmt.draftProgram_settled hdraft) hcode h
    exact ⟨exe, generate_eq_report htree hdraft ▸ Assembly.report_eq_ok.mpr ⟨s, hrun⟩⟩
  · intro exe h
    obtain ⟨hcode, hslots, htexts, -⟩ := hsizes exe h
    exact ⟨hcode, hslots, by omega⟩
  · intro h
    rcases htyped.generate htree with ⟨exe, hexe⟩ | hfull
    · have := (hsizes exe hexe).2.2.2
      omega
    · exact hfull

/-- A source with one text in two places. -/
def textTwice : String := "\x7bstring s s = \"on\" if (s == \"on\") \x7bprint(s)\x7d print(1)\x7d$"

/-- A text in two places is on the page once. -/
theorem generate_ok_iff_size_le_textTwice : ∃ a root d, (∃ tokens program,
      (Scan.ofSource textTwice).result = .ok tokens ∧ (parse tokens).result = .ok program ∧
      (analyze program).result = .ok a) ∧
    a.tree = [root] ∧ ((Stmt.ofTree root).draftProgram a.table).run {} = .ok () d ∧
    ((∃ exe, (generate a).result = .ok exe) ↔ d.size ≤ 256) ∧
    (∀ exe, (generate a).result = .ok exe → exe.codeLen = d.codeSize ∧
      exe.staticLen = d.slots.size ∧ exe.heapStart = 256 - textsSize d.texts) ∧
    (256 < d.size → (generate a).result = .error .outOfMemory) := by
  have hok : (compile textTwice).result.isOk := by decide +kernel
  cases h : (compile textTwice).result with
  | error e =>
    rw [h] at hok
    cases hok
  | ok artifact =>
    obtain ⟨hscan, hparse, hanalyze, _⟩ := compile_eq_ok h
    obtain ⟨root, d, hsizes⟩ := generate_ok_iff_size_le _ _ _ _ hscan hparse hanalyze
    exact ⟨_, root, d, ⟨_, _, hscan, hparse, hanalyze⟩, hsizes⟩

end OnePage
