import OnePage.Proofs.Fitting
import OnePage.Proofs.Printing

/-!
# Texts on the page

Each text that the code of a program asks for is put on the page once, right below those before it,
and wherever it is asked for again it is found there. So texts are the same exactly if their
addresses are, and a text without a zero character is printed, byte by byte, from its address.
-/

namespace OnePage

/-! ### The bytes of a text -/

/-- No byte of a character other than the zero character is zero. -/
theorem ne_zero_of_mem_utf8EncodeChar {c : Char} (hc : c ≠ '\x00') {b : UInt8}
    (h : b ∈ String.utf8EncodeChar c) : b ≠ 0 := by
  have hpos : 0 < c.val.toNat := by
    by_contra hzero
    exact hc (Char.ext (UInt32.toNat_inj.mp (by simpa using hzero)))
  have hne (n : Nat) (hn : 0 < n) (hlt : n < 256) : UInt8.ofNat n ≠ 0 := by
    intro he
    have hnat := congrArg UInt8.toNat he
    rw [UInt8.toNat_ofNat', Nat.mod_eq_of_lt hlt] at hnat
    exact absurd hnat (Nat.ne_of_gt hn)
  unfold String.utf8EncodeChar at h
  dsimp only at h
  split at h
  · rw [List.mem_singleton.mp h]
    exact hne _ hpos (by omega)
  · split at h
    · simp only [List.mem_cons, List.not_mem_nil, or_false] at h
      rcases h with rfl | rfl <;> exact hne _ (by omega) (by omega)
    · split at h
      · simp only [List.mem_cons, List.not_mem_nil, or_false] at h
        rcases h with rfl | rfl | rfl <;> exact hne _ (by omega) (by omega)
      · simp only [List.mem_cons, List.not_mem_nil, or_false] at h
        rcases h with rfl | rfl | rfl | rfl <;> exact hne _ (by omega) (by omega)

/-- A text without a zero character has no zero among its bytes. -/
theorem ne_zero_of_mem_toUTF8 {text : String} (h : '\x00' ∉ text.toList) {b : UInt8}
    (hb : b ∈ text.toUTF8.data.toList) : b ≠ 0 := by
  rw [show text.toUTF8 = text.toList.utf8Encode from String.utf8Encode_toList.symm,
    List.utf8Encode, List.toList_data_toByteArray] at hb
  obtain ⟨c, hc, hmem⟩ := List.mem_flatMap.mp hb
  refine ne_zero_of_mem_utf8EncodeChar ?_ hmem
  rintro rfl
  exact h hc

/-! ### Interning -/

namespace Assembly

variable {s t : Assembly}

/-- Lines are put on an image part by part. -/
theorem lines_append {front back : List Line} (h : (lines (front ++ back)).run s = .ok () t) :
    ∃ mid, (lines front).run s = .ok () mid ∧ (lines back).run mid = .ok () t := by
  induction front generalizing s with
  | nil => exact ⟨s, rfl, h⟩
  | cons l front ih =>
    obtain ⟨_, first, hl, hrest⟩ := run_bind_eq_ok.mp
      (show (line l >>= fun _ ↦ lines (front ++ back)).run s = .ok () t from h)
    obtain ⟨mid, hfront, hback⟩ := ih hrest
    exact ⟨mid, run_bind_eq_ok.mpr ⟨_, first, hl, hfront⟩, hback⟩

/-- A line begins by interning the text it asks for, which then has the address returned. -/
theorem line_interns {l : Line} {code : List Cell} (hs : Filled s code)
    (h : (line l).run s = .ok () t) {text : String} (htext : text ∈ l.texts) :
    ∃ a mid, (intern text).run s = .ok a mid ∧ t.texts.lookup text = some a := by
  cases l with
  | note profile remark => cases htext
  | place placed =>
    obtain rfl := List.mem_singleton.mp htext
    obtain ⟨a, mid, hintern, hpure⟩ := run_bind_eq_ok.mp
      (show (intern text >>= fun _ ↦ pure ()).run s = .ok () t from h)
    cases hpure
    exact ⟨a, t, hintern, (intern_ok hs hintern).2.2⟩
  | code i =>
    rw [Line.texts, Option.mem_toList, Instruction.text?] at htext
    obtain ⟨said, hline⟩ := run_line_code i s
    rw [hline] at h
    obtain ⟨cells, mid, hcells, hrest⟩ := run_bind_eq_ok.mp h
    obtain ⟨_, _, hsay, hwrite⟩ := run_bind_eq_ok.mp hrest
    cases hsay
    have hmid := (cellsOf_ok hs hcells).1
    obtain ⟨_, htexts⟩ := write_ok (hmid.withEvents _) hwrite
    -- Only an instruction with a text as its operand interns one.
    unfold cellsOf at hcells
    split at htext
    · next operand hoperand =>
      cases htext
      rw [hoperand] at hcells
      obtain ⟨cell, next, hcell, hpure⟩ := run_bind_eq_ok.mp hcells
      obtain ⟨a, last, hintern, hcell'⟩ := run_bind_eq_ok.mp hcell
      cases hcell'
      cases hpure
      refine ⟨a, mid, hintern, ?_⟩
      rw [htexts]
      exact (intern_ok hs hintern).2.2
    · cases htext

/-- Wherever lines ask for a text, interning it returns the address that it has at the end. -/
theorem lines_intern {front back : List Line} {l : Line} {code : List Cell} (hs : Filled s code)
    (h : (lines (front ++ l :: back)).run s = .ok () t) {text : String} (htext : text ∈ l.texts) :
    ∃ before after, (lines front).run s = .ok () before ∧
      (intern text).run before = .ok (address t.texts text) after := by
  obtain ⟨before, hfront, hrest⟩ := lines_append h
  obtain ⟨_, next, hl, hback⟩ := run_bind_eq_ok.mp
    (show (line l >>= fun _ ↦ lines back).run before = .ok () t from hrest)
  have hbefore := (lines_ok hs hfront).1
  obtain ⟨a, after, hintern, hnext⟩ := line_interns hbefore hl htext
  have hlast : t.texts.lookup text = some a :=
    (lines_ok (line_ok hbefore hl).1 hback).2.1 text a hnext
  refine ⟨before, after, hfront, ?_⟩
  rw [address, hlast]
  exact hintern

/-- A text of a stack of texts is found at its address. -/
theorem Stacked.lookup_of_mem {texts : List (String × UInt8)} (h : Stacked texts) {text : String}
    {a : UInt8} (hmem : (text, a) ∈ texts) : texts.lookup text = some a := by
  induction texts with
  | nil => cases hmem
  | cons entry texts ih =>
    obtain ⟨other, b⟩ := entry
    obtain ⟨_, hnew, hrest⟩ := h
    rcases List.mem_cons.mp hmem with heq | hmem
    · cases heq
      simp
    · have hlookup := ih hrest hmem
      have hne : text ≠ other := by
        rintro rfl
        rw [hnew] at hlookup
        cases hlookup
      simpa [List.lookup_cons, beq_false_of_ne hne] using hlookup

/-- A stack of texts is told by its texts and their addresses. -/
theorem Stacked.eq_map {texts : List (String × UInt8)} (h : Stacked texts) :
    texts = (texts.map Prod.fst).map fun text ↦ (text, address texts text) := by
  rw [List.map_map]
  refine ((List.map_congr_left fun entry hentry ↦ ?_).trans (List.map_id texts)).symm
  rw [Function.comp_apply, address, h.lookup_of_mem hentry]
  rfl

end Assembly

/-! ### Where texts stand -/

/-- The texts that a draft asks for, in order of their first use, are the texts of an executable,
and stand at the given addresses. -/
structure Draft.Pooled (d : Draft) (exe : Executable) (address : String → UInt8) : Prop where
  /-- The texts fill the top of the page, the latest lowest, each with a zero after it. -/
  heap : exe.bytes.toList.drop exe.heapStart = d.texts.reverse.flatMap textBytes
  /-- They are what assembling the lines has put there. -/
  table : ∃ s, (Assembly.lines d.lines.toList).run .start = .ok () s ∧
    s.texts = d.texts.reverse.map fun text ↦ (text, address text)
  /-- Wherever the draft asks for a text, interning it returns its address. -/
  interned : ∀ front l back text, d.lines.toList = front ++ l :: back → text ∈ l.texts →
    ∃ s t, (Assembly.lines front).run .start = .ok () s ∧
      (Assembly.intern text).run s = .ok (address text) t
  /-- A text starts at its address. -/
  starts : ∀ text ∈ d.texts, textBytes text <+: exe.bytes.toList.drop (address text).toNat
  distinct : ∀ text ∈ d.texts, ∀ other ∈ d.texts, address text = address other ↔ text = other
  /-- A machine whose memory has the texts prints one without a zero character, byte by byte, when
  it is called for with its address. -/
  printed : ∀ text ∈ d.texts, '\x00' ∉ text.toList → ∀ m : Machine,
    (∀ k : UInt8, exe.heapStart ≤ k.toNat → m.memory.read k = exe.bytes.read k) →
    m.x = 2 → m.y = address text → m.callSystem =
      (.running, { m with output := m.output ++ Machine.latinText text.toUTF8.data.toList })

namespace Linked

variable {d : Draft} {layout : Layout} {texts : List (String × UInt8)} {exe : Executable}

/-- The page ends with the texts. -/
theorem drop_heapStart (h : Linked d layout texts exe) :
    exe.bytes.toList.drop exe.heapStart = texts.flatMap fun t ↦ textBytes t.1 := by
  have hcode : (Instruction.encodeAll (layout.resolveAll d.code)).length = exe.codeLen := by
    rw [Instruction.length_encodeAll, layout.size_resolveAll, h.codeLen]
  have hroom := h.room
  rw [h.bytes, ← List.append_assoc, List.drop_left']
  rw [List.length_append, List.length_replicate]
  omega

/-- A machine whose memory has the texts prints one of them from its address. -/
theorem prints_text (h : Linked d layout texts exe) {text : String}
    (ht : (texts.lookup text).isSome) (hzero : '\x00' ∉ text.toList) {m : Machine}
    (hmemory : ∀ k : UInt8, exe.heapStart ≤ k.toNat → m.memory.read k = exe.bytes.read k)
    (hx : m.x = 2) (hy : m.y = layout.address text) : m.callSystem =
      (.running, { m with output := m.output ++ Machine.latinText text.toUTF8.data.toList }) := by
  obtain ⟨hholds, hlow, hend⟩ := h.holds_text ht
  have hheld : m.memory.Holds (layout.address text).toNat (textBytes text) := by
    refine hholds.congr fun k hk ↦ hmemory _ ?_
    rw [UInt8.toNat_ofNat', Nat.mod_eq_of_lt (by omega)]
    omega
  rw [Machine.callSystem_two hx, hy, Page.textAt_eq hheld hend fun _ ↦ ne_zero_of_mem_toUTF8 hzero]

end Linked

/-- The texts of every image that is generated are those that the program's code asks for, each once
and in order of first use from the top of the page down. -/
theorem generate_pools_texts (a : Analysis) (exe : Executable) (h : (generate a).result = .ok exe) :
    ∃ root rest d address, a.tree = root :: rest ∧
      ((Stmt.ofTree root).draftProgram a.table).run {} = .ok () d ∧ d.Pooled exe address := by
  obtain ⟨root, rest, d, s, htree, hdraft, hrun⟩ := generate_assembles h
  obtain ⟨mid, layout, hlines, hlinked⟩ := Assembly.assemble_ok hrun
  have hholds : mid.texts.map Prod.fst = d.texts.reverse :=
    Assembly.lines_holds Assembly.filled_start Assembly.holds_start hlines
  have hplaced : ∀ text ∈ d.texts, (mid.texts.lookup text).isSome := by
    intro text htext
    obtain ⟨l, hl, hmem⟩ := List.mem_flatMap.mp (List.mem_eraseDups.mp htext)
    exact hlinked.placed l hl text hmem
  refine ⟨root, rest, d, layout.address, htree, hdraft, ?_⟩
  constructor
  · rw [hlinked.drop_heapStart, ← hholds, List.flatMap_map]
  · refine ⟨mid, hlines, ?_⟩
    rw [hlinked.address, ← hholds]
    exact hlinked.stacked.eq_map
  · intro front l back text hsplit htext
    rw [hsplit] at hlines
    rw [hlinked.address]
    exact Assembly.lines_intern Assembly.filled_start hlines htext
  · intro text htext
    obtain ⟨hheld, _, hend⟩ := hlinked.holds_text (hplaced text htext)
    exact hheld.prefix_drop hend
  · intro text htext other hother
    refine ⟨hlinked.address_inj (hplaced text htext) (hplaced other hother), ?_⟩
    rintro rfl
    rfl
  · intro text htext hzero m hmemory hx hy
    exact hlinked.prints_text (hplaced text htext) hzero hmemory hx hy

/-- A program that prints a text twice, with a truth value between, the text having one character of
two bytes. -/
def accented : Analysis where
  tree := [.node { node := .branch .block } [
    .node { node := .branch .printStatement } [.node { node := .literal "é" .start } []],
    .node { node := .branch .printStatement } [
      .node { node := .leaf { lexeme := "true", kind := .boolVal, position := .start } } []],
    .node { node := .branch .printStatement } [.node { node := .literal "é" .start } []]]]
  table := .start

/-- A text that is printed twice is on the page once, above the word for a truth value. -/
theorem generate_pools_texts_accented : ∃ exe root rest d address,
    (generate accented).result = .ok exe ∧
      exe.bytes.toList.drop exe.heapStart = [116, 114, 117, 101, 0, 195, 169, 0] ∧
      accented.tree = root :: rest ∧
      ((Stmt.ofTree root).draftProgram accented.table).run {} = .ok () d ∧
      d.Pooled exe address := by
  have hheap : (generate accented).result.toOption.map
      (fun exe ↦ exe.bytes.toList.drop exe.heapStart) =
        some [116, 114, 117, 101, 0, 195, 169, 0] := by
    decide +kernel
  cases h : (generate accented).result with
  | error e =>
    rw [h] at hheap
    cases hheap
  | ok exe =>
    rw [h] at hheap
    obtain ⟨root, rest, d, address, hpooled⟩ := generate_pools_texts accented exe h
    exact ⟨exe, root, rest, d, address, rfl, Option.some.inj hheap, hpooled⟩

end OnePage
