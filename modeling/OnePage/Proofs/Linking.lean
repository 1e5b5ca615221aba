import OnePage.Proofs.Assembling

/-!
# Linking

Assembling a draft gives an executable whose bytes are the resolved code, zeros for the slots and
the free cells, and the texts.
-/

namespace OnePage

namespace Assembly

/-- A remark leaves image and texts as they are. -/
private theorem run_say (profile : Profile) (text : String) (s : Assembly) :
    ∃ events, (say profile text).run s = .ok () { s with events } := ⟨_, rfl⟩

/-- The remarks on slots leave image and texts as they are. -/
private theorem run_saySlots (table : ScopeTable) (codeLen : Nat) (d : Draft) (s : Assembly) :
    ∃ events, (saySlots table codeLen d).run s = .ok () { s with events } := by
  unfold saySlots
  generalize (d.slots.toList.zip (addresses codeLen d)).zipIdx = entries
  induction entries generalizing s with
  | nil => exact ⟨s.events, rfl⟩
  | cons entry entries ih =>
    obtain ⟨first, hfirst⟩ := run_say .verbose
      (slotNote table entry.1.1 entry.2 entry.1.2) s
    obtain ⟨events, h⟩ := ih { s with events := first }
    refine ⟨events, ?_⟩
    change (say _ _ >>= fun _ ↦ entries.forM _).run s = _
    rw [EStateM.run_bind, hfirst]
    exact h

/-- Finishing fails for want of room if the slots do not fit below the texts, and settles every
cell if they do. -/
theorem run_finish (table : ScopeTable) (d : Draft) (s : Assembly) :
    if s.image.heapStart < s.image.position + d.slots.size then
      ∃ t, (finish table d).run s = .error .outOfMemory t
    else
      match s.image.cells.mapM (byteOf s.image.position d) with
      | .error e => ∃ t, (finish table d).run s = .error e t
      | .ok bytes => ∃ t, (finish table d).run s = .ok
          { bytes, codeLen := s.image.position, staticLen := d.slots.size,
            heapStart := s.image.heapStart } t := by
  obtain ⟨first, hfirst⟩ := run_say .everything
    ("image before backpatching:\n" ++ s.image.render) s
  obtain ⟨events, hslots⟩ := run_saySlots table s.image.position d { s with events := first }
  split
  · next h =>
    apply Exists.intro
    simp only [finish, EStateM.run_bind, EStateM.run_get, hfirst]
    rw [if_pos h]
    rfl
  · next h =>
    split
    · next e he =>
      apply Exists.intro
      simp only [finish, EStateM.run_bind, EStateM.run_get, hfirst]
      rw [if_neg h, EStateM.run_bind, hslots, he]
      rfl
    · next bytes he =>
      apply Exists.intro
      simp only [finish, EStateM.run_bind, EStateM.run_get, hfirst]
      rw [if_neg h, EStateM.run_bind, hslots, he]
      rfl

/-- The layout of a draft whose code ends at an address and whose texts are in a table. -/
def layoutOf (codeLen : Nat) (d : Draft) (texts : List (String × UInt8)) : Layout where
  codeLen
  distance index := (d.distances[index]?.join).getD 0
  address := address texts

/-- The byte found for a cell is that of the layout. -/
theorem byteOf_eq {codeLen : Nat} {d : Draft} {texts : List (String × UInt8)} {cell : Cell}
    {b : UInt8} (h : byteOf codeLen d cell = .ok b) :
    b = (layoutOf codeLen d texts).byte cell := by
  cases cell with
  | const byte | heap byte =>
    cases h
    rfl
  | temp index =>
    simp only [byteOf, addresses, List.getElem?_map] at h
    cases hr : (List.range d.slots.size)[index]? with
    | none =>
      rw [hr] at h
      cases h
    | some k =>
      have hk : k = index := by
        obtain ⟨hlt, hget⟩ := List.getElem?_eq_some_iff.mp hr
        rw [← hget, List.getElem_range]
      rw [hr, hk] at h
      cases h
      rfl
  | jump index =>
    simp only [byteOf] at h
    cases hj : d.distances[index]? with
    | none =>
      rw [hj] at h
      cases h
    | some distance =>
      cases distance with
      | none =>
        rw [hj] at h
        cases h
      | some distance =>
        rw [hj] at h
        cases h
        simp [Layout.byte, layoutOf, hj]

end Assembly

/-- The bytes of a text on the page: its own, then a zero. -/
def textBytes (text : String) : List UInt8 := text.toUTF8.data.toList ++ [0]

/-- The executable is the draft under the layout, with the texts of a table. -/
structure Linked (d : Draft) (layout : Layout) (texts : List (String × UInt8))
    (exe : Executable) : Prop where
  codeLen : exe.codeLen = Instruction.size d.code
  base : layout.codeLen = exe.codeLen
  staticLen : exe.staticLen = d.slots.size
  room : exe.codeLen + exe.staticLen ≤ exe.heapStart
  bytes : exe.bytes.toList = Instruction.encodeAll (layout.resolveAll d.code) ++
    (List.replicate (exe.heapStart - exe.codeLen) 0 ++ texts.flatMap fun t ↦ textBytes t.1)
  distances : ∀ j v, d.distances[j]? = some (some v) → layout.distance j = v
  address : layout.address = Assembly.address texts
  stacked : Assembly.Stacked texts
  placed : ∀ line ∈ d.lines.toList, ∀ text ∈ line.texts, (texts.lookup text).isSome

namespace Assembly

/-- The cells of a text are its bytes. -/
theorem textCells_eq (text : String) : Image.textCells text = (textBytes text).map .const := rfl

/-- The bytes of the texts of a table are those of their cells, under any layout. -/
theorem map_byte_heapCells (layout : Layout) (texts : List (String × UInt8)) :
    (heapCells texts).map layout.byte = texts.flatMap fun t ↦ textBytes t.1 := by
  induction texts with
  | nil => rfl
  | cons t texts ih =>
    have ht : (Image.textCells t.1).map layout.byte = textBytes t.1 := by
      rw [textCells_eq, List.map_map]
      exact List.map_id _
    simp only [heapCells, List.flatMap_cons, List.map_append] at ih ⊢
    rw [ht, ih]

/-- The bytes of the cells of lines are those of their code, resolved. -/
theorem map_byte_symbolic (layout : Layout) (lines : List Line) :
    (Line.symbolic layout.address lines).map layout.byte =
      Instruction.encodeAll (layout.resolveAll (lines.filterMap Line.code?)) := by
  unfold Line.symbolic Instruction.encodeAll Layout.resolveAll
  generalize lines.filterMap Line.code? = code
  induction code with
  | nil => rfl
  | cons i code ih =>
    rw [List.flatMap_cons, List.map_append, ih, layout.map_byte_symbolic]
    rfl

/-- An assembly that succeeds puts the lines of the draft on an image and links them with the texts
that are then there. -/
theorem assemble_ok {table : ScopeTable} {d : Draft} {s : Assembly} {exe : Executable}
    (h : (assemble table d none).run start = .ok exe s) :
    ∃ mid layout, (lines d.lines.toList).run start = .ok () mid ∧
      Linked d layout mid.texts exe := by
  obtain ⟨_, mid, hlines, hfinish⟩ := run_bind_eq_ok.mp
    (show (lines d.lines.toList >>= fun _ ↦ finish table d).run start = .ok exe s from h)
  obtain ⟨hfilled, -, hplaced⟩ := lines_ok filled_start hlines
  rw [List.nil_append] at hfilled
  have hpos := hfilled.regions.position
  have hrun := run_finish table d mid
  split at hrun
  · obtain ⟨_, hrun⟩ := hrun
    rw [hrun] at hfinish
    cases hfinish
  · next hroom =>
    split at hrun
    · obtain ⟨_, hrun⟩ := hrun
      rw [hrun] at hfinish
      cases hfinish
    · next bytes hbytes =>
      obtain ⟨_, hrun⟩ := hrun
      rw [hrun] at hfinish
      cases hfinish
      let layout := layoutOf mid.image.position d mid.texts
      have hcode : (Line.symbolic (address mid.texts) d.lines.toList).map layout.byte =
          Instruction.encodeAll (layout.resolveAll d.code) :=
        map_byte_symbolic layout d.lines.toList
      have hsize : mid.image.position = Instruction.size d.code := by
        rw [hpos, ← List.length_map layout.byte, hcode, Instruction.length_encodeAll,
          layout.size_resolveAll]
      refine ⟨mid, layout, hlines, hsize, rfl, rfl, Nat.le_of_not_lt hroom, ?_, ?_, rfl,
        hfilled.stacked, hplaced⟩
      · have hmap : mid.image.cells.toList.mapM (byteOf mid.image.position d) =
            .ok bytes.toList := by
          rw [toList_mapM, hbytes]
          rfl
        have hall := mapM_eq_ok_map (g := layout.byte) (fun _ _ hc ↦ byteOf_eq hc) hmap
        rw [hall, hfilled.regions.cells, List.map_append, List.map_append, hcode,
          map_byte_heapCells, List.map_replicate]
        rfl
      · intro j v hj
        change ((d.distances[j]?).join).getD 0 = v
        rw [hj]
        rfl

end Assembly

/-- An executable is generated by assembling the draft of the first tree. -/
theorem generate_assembles {a : Analysis} {exe : Executable} (h : (generate a).result = .ok exe) :
    ∃ root rest d s, a.tree = root :: rest ∧
      ((Stmt.ofTree root).draftProgram a.table).run {} = .ok () d ∧
      (Assembly.assemble a.table d none).run .start = .ok exe s := by
  unfold generate at h
  split at h
  · cases h
  · next root rest htree =>
    split at h
    · next d hdraft =>
      unfold Assembly.report at h
      split at h
      · next e s hrun =>
        cases h
        exact ⟨root, rest, d, s, htree, hdraft, hrun⟩
      · cases h
    · next e d hdraft =>
      unfold Assembly.report at h
      split at h
      · next exe' s hrun =>
        obtain ⟨_, _, _, hthrow⟩ := run_bind_eq_ok.mp
          (show (Assembly.lines d.lines.toList >>= fun _ ↦ throw e).run Assembly.start =
            .ok exe' s from hrun)
        cases hthrow
      · cases h

/-- An executable is generated from the first tree, whose draft it links. -/
theorem generate_ok {a : Analysis} {exe : Executable} (h : (generate a).result = .ok exe) :
    ∃ root rest d layout texts, a.tree = root :: rest ∧
      ((Stmt.ofTree root).draftProgram a.table).run {} = .ok () d ∧
      Linked d layout texts exe := by
  obtain ⟨root, rest, d, s, htree, hdraft, hrun⟩ := generate_assembles h
  obtain ⟨mid, layout, _, hlinked⟩ := Assembly.assemble_ok hrun
  exact ⟨root, rest, d, layout, mid.texts, htree, hdraft, hlinked⟩

/-! ### Code and texts on the page -/

namespace Assembly

/-- There are as many cells of texts as bytes. -/
theorem length_heapCells (texts : List (String × UInt8)) :
    (heapCells texts).length = (texts.flatMap fun t ↦ textBytes t.1).length := by
  rw [← map_byte_heapCells (layoutOf 0 {} texts) texts, List.length_map]

/-- A text of a stack of texts starts as far below the end of the page as it and those before it
are long. -/
theorem Stacked.split {texts : List (String × UInt8)} (h : Stacked texts) {text : String}
    {a : UInt8} (ha : texts.lookup text = some a) :
    ∃ newer older, texts = newer ++ (text, a) :: older ∧
      a.toNat + (heapCells ((text, a) :: older)).length = 256 := by
  induction texts with
  | nil => cases ha
  | cons entry texts ih =>
    obtain ⟨other, b⟩ := entry
    by_cases he : text = other
    · subst he
      have hb : b = a := by simpa [List.lookup_cons] using ha
      subst hb
      exact ⟨[], texts, rfl, h.1⟩
    · have hl : texts.lookup text = some a := by
        simpa [List.lookup_cons, beq_false_of_ne he] using ha
      obtain ⟨newer, older, rfl, hsize⟩ := ih h.2.2 hl
      exact ⟨(other, b) :: newer, older, rfl, hsize⟩

/-- Two tails of one table that have as many cells start with the same text: a longer tail has more
cells. -/
theorem head_eq_of_length {entry other : String × UInt8}
    {between older rest : List (String × UInt8)}
    (h : entry :: older = between ++ other :: rest)
    (hlen : (heapCells (entry :: older)).length = (heapCells (other :: rest)).length) :
    entry = other := by
  cases between with
  | nil => exact (List.cons.inj h).1
  | cons first between =>
    rw [List.cons_append, List.cons.injEq] at h
    obtain ⟨rfl, rfl⟩ := h
    have hpos := Image.length_textCells_pos entry.1
    simp only [heapCells, List.flatMap_cons, List.flatMap_append, List.length_append] at hlen
    omega

/-- Different texts of a stack start at different addresses. -/
theorem Stacked.lookup_inj {texts : List (String × UInt8)} (h : Stacked texts)
    {text other : String} {a : UInt8} (ht : texts.lookup text = some a)
    (ho : texts.lookup other = some a) : text = other := by
  obtain ⟨newer, older, hsplit, hsize⟩ := h.split ht
  obtain ⟨newer', older', hsplit', hsize'⟩ := h.split ho
  have hlen : (heapCells ((text, a) :: older)).length =
      (heapCells ((other, a) :: older')).length := by omega
  -- Both texts head a tail of the same table, so one tail is part of the other.
  rcases List.append_eq_append_iff.mp (hsplit.symm.trans hsplit') with
    ⟨between, _, hback⟩ | ⟨between, _, hback⟩
  · exact congrArg Prod.fst (head_eq_of_length hback hlen)
  · exact congrArg Prod.fst (head_eq_of_length hback hlen.symm).symm

end Assembly

namespace Linked

variable {d : Draft} {layout : Layout} {texts : List (String × UInt8)} {exe : Executable}

/-- The texts end where the page ends. -/
theorem heap_end (h : Linked d layout texts exe) :
    exe.heapStart + (texts.flatMap fun t ↦ textBytes t.1).length = 256 := by
  have hlen := congrArg List.length h.bytes
  have hroom := h.room
  rw [Vector.length_toList, List.length_append, List.length_append, List.length_replicate,
    Instruction.length_encodeAll, layout.size_resolveAll, ← h.codeLen] at hlen
  omega

/-- The resolved code stands at the start of the page. -/
theorem holds_code (h : Linked d layout texts exe) :
    exe.bytes.Holds 0 (Instruction.encodeAll (layout.resolveAll d.code)) := by
  have hall := Page.holds_toList exe.bytes
  rw [h.bytes] at hall
  exact (Page.holds_append.mp hall).1

/-- The slots hold zero at first. -/
theorem read_slot (h : Linked d layout texts exe) {k : Nat} (hk : k < d.slots.size) :
    exe.bytes.read (layout.slot k) = 0 := by
  have hroom := h.room
  have hstatic := h.staticLen
  have hall := Page.holds_toList exe.bytes
  rw [h.bytes] at hall
  have hfree := (Page.holds_append.mp (Page.holds_append.mp hall).2).1
  rw [Instruction.length_encodeAll, layout.size_resolveAll, ← h.codeLen, Nat.zero_add] at hfree
  rw [Layout.slot, h.base]
  exact hfree k 0 (List.getElem?_replicate_of_lt (by omega))

/-- Each text on the page stands at its address, within the region of the texts. -/
theorem holds_text (h : Linked d layout texts exe) {text : String}
    (ht : (texts.lookup text).isSome) :
    exe.bytes.Holds (layout.address text).toNat (textBytes text) ∧
      exe.heapStart ≤ (layout.address text).toNat ∧
      (layout.address text).toNat + (textBytes text).length ≤ 256 := by
  obtain ⟨a, ha⟩ := Option.isSome_iff_exists.mp ht
  have haddr : layout.address text = a := by
    rw [h.address, Assembly.address, ha]
    rfl
  obtain ⟨newer, older, hsplit, hsize⟩ := h.stacked.split ha
  have hend := h.heap_end
  have hroom := h.room
  have hbytes := h.bytes
  have hcodeLen : (Instruction.encodeAll (layout.resolveAll d.code)).length = exe.codeLen := by
    rw [Instruction.length_encodeAll, layout.size_resolveAll, h.codeLen]
  rw [Assembly.length_heapCells, List.flatMap_cons, List.length_append] at hsize
  rw [hsplit, List.flatMap_append, List.flatMap_cons, List.length_append, List.length_append]
    at hend
  rw [hsplit, List.flatMap_append, List.flatMap_cons] at hbytes
  dsimp only at hsize hend
  rw [haddr]
  refine ⟨?_, by omega, by omega⟩
  have hall := Page.holds_toList exe.bytes
  rw [hbytes] at hall
  have htext := (Page.holds_append.mp (Page.holds_append.mp (Page.holds_append.mp
    (Page.holds_append.mp hall).2).2).2).1
  rw [hcodeLen, List.length_replicate] at htext
  rw [show a.toNat = 0 + exe.codeLen + (exe.heapStart - exe.codeLen) +
    (newer.flatMap fun t ↦ textBytes t.1).length by omega]
  exact htext

/-- Texts on the page with the same address are the same. -/
theorem address_inj (h : Linked d layout texts exe) {text other : String}
    (ht : (texts.lookup text).isSome) (ho : (texts.lookup other).isSome)
    (he : layout.address text = layout.address other) : text = other := by
  obtain ⟨a, ha⟩ := Option.isSome_iff_exists.mp ht
  obtain ⟨b, hb⟩ := Option.isSome_iff_exists.mp ho
  rw [h.address, Assembly.address, Assembly.address, ha, hb] at he
  obtain rfl : a = b := he
  exact h.stacked.lookup_inj ha hb

end Linked

end OnePage
