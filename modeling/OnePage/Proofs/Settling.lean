import OnePage.Proofs.Fitting
import OnePage.Proofs.Tiling

/-!
# Settling every cell

Once the code of a program is on the image and its slots have room, nothing can fail any more: each
branch on the image has landed, each slot addressed there has an address, and all other cells have
had their bytes since they were written. The slots stand right above the code, apart from each
other, and hold zero.
-/

namespace OnePage

namespace Assembly

variable {s : Assembly} {d : Draft} {codeLen : Nat}

private theorem getElem?_addresses {i address : Nat} :
    (addresses codeLen d)[i]? = some address ↔ i < d.slots.size ∧ codeLen + i = address := by
  rw [addresses, List.getElem?_map, Option.map_eq_some_iff]
  constructor
  · rintro ⟨j, hj, rfl⟩
    obtain ⟨hlt, rfl⟩ := List.getElem?_eq_some_iff.mp hj
    rw [List.length_range] at hlt
    exact ⟨hlt, by rw [List.getElem_range]⟩
  · rintro ⟨hlt, rfl⟩
    exact ⟨i, List.getElem?_range hlt, rfl⟩

/-- The byte of a slot's cell is the low byte of the slot's address. -/
theorem byteOf_temp {i : Nat} {b : UInt8} (h : byteOf codeLen d (.temp i) = .ok b) :
    i < d.slots.size ∧ b = UInt8.ofNat (codeLen + i) := by
  rw [byteOf] at h
  cases haddress : (addresses codeLen d)[i]? with
  | none =>
    rw [haddress] at h
    cases h
  | some address =>
    obtain ⟨hlt, rfl⟩ := getElem?_addresses.mp haddress
    rw [haddress] at h
    cases h
    exact ⟨hlt, rfl⟩

/-- The byte of a branch's cell is the distance of the branch. -/
theorem byteOf_jump {j : Nat} {b : UInt8} (h : byteOf codeLen d (.jump j) = .ok b) :
    d.distances[j]? = some (some b) := by
  rw [byteOf] at h
  split at h
  · next distance hdistance =>
    cases h
    exact hdistance
  · cases h

/-- The page of an executable has the bytes of an image with a draft's slots and branches. -/
structure Patched (s : Assembly) (d : Draft) (exe : Executable) : Prop where
  codeLen : exe.codeLen = s.image.position
  staticLen : exe.staticLen = d.slots.size
  heapStart : exe.heapStart = s.image.heapStart
  /-- What was written as a byte is there. -/
  known : ∀ (k : Nat) (b : UInt8),
    s.image.cells[k]? = some (.const b) ∨ s.image.cells[k]? = some (.heap b) →
      exe.bytes[k]? = some b
  /-- A branch has a distance, and this is there. -/
  jump : ∀ k j : Nat, s.image.cells[k]? = some (.jump j) →
    ∃ distance, d.distances[j]? = some (some distance) ∧ exe.bytes[k]? = some distance
  /-- A slot has an address, and this is there. -/
  temp : ∀ k i : Nat, s.image.cells[k]? = some (.temp i) →
    ∃ address, (addresses exe.codeLen d)[i]? = some address ∧
      exe.bytes[k]? = some (UInt8.ofNat address)
  /-- The slots are numbered from the end of the code up to the texts, and hold zero. -/
  slots : ∀ i < d.slots.size, (addresses exe.codeLen d)[i]? = some (exe.codeLen + i) ∧
    (UInt8.ofNat (exe.codeLen + i)).toNat = exe.codeLen + i ∧ exe.codeLen + i < exe.heapStart ∧
    exe.bytes[exe.codeLen + i]? = some 0
  /-- No two slots are in one place. -/
  distinct : ((addresses exe.codeLen d).map UInt8.ofNat).Nodup

/-- Between code and texts the cells are zero. -/
theorem Filled.free {code : List Cell} (h : Filled s code) {k : Nat}
    (hlow : s.image.position ≤ k) (hhigh : k < s.image.heapStart) :
    s.image.cells[k]? = some (.const 0) := by
  have hposition := h.regions.position
  rw [← Vector.getElem?_toList, h.regions.cells, List.getElem?_append_right (by omega),
    List.getElem?_append_left (by rw [List.length_replicate]; omega)]
  exact List.getElem?_replicate_of_lt (by omega)

/-- Bytes found for all cells of a filled image are those of the page. -/
theorem Filled.patched {code : List Cell} (h : Filled s code)
    (room : s.image.position + d.slots.size ≤ s.image.heapStart) {bytes : Page}
    (hbytes : s.image.cells.mapM (byteOf s.image.position d) = .ok bytes) :
    Patched s d { bytes, codeLen := s.image.position, staticLen := d.slots.size,
                  heapStart := s.image.heapStart } := by
  have htop := h.regions.top
  have hcell : ∀ (k : Nat) (cell : Cell), s.image.cells[k]? = some cell →
      ∃ b, byteOf s.image.position d cell = .ok b ∧ bytes[k]? = some b := by
    intro k cell hk
    have hlist : s.image.cells.toList.mapM (byteOf s.image.position d) = .ok bytes.toList := by
      rw [toList_mapM, hbytes]
      rfl
    rw [← Vector.getElem?_toList] at hk ⊢
    exact mapM_eq_ok_getElem? hlist hk
  have hknown : ∀ (k : Nat) (b : UInt8),
      s.image.cells[k]? = some (.const b) ∨ s.image.cells[k]? = some (.heap b) →
        bytes[k]? = some b := by
    intro k b hk
    rcases hk with hk | hk
    all_goals
      obtain ⟨_, hbyte, hget⟩ := hcell k _ hk
      cases hbyte
      exact hget
  have hbelow : ∀ i < d.slots.size, s.image.position + i < s.image.heapStart := by
    intro i hi
    omega
  have hlow : ∀ i < d.slots.size,
      (UInt8.ofNat (s.image.position + i)).toNat = s.image.position + i := by
    intro i hi
    rw [UInt8.toNat_ofNat']
    exact Nat.mod_eq_of_lt (by omega)
  refine ⟨rfl, rfl, rfl, hknown, ?_, ?_, ?_, ?_⟩
  · intro k j hk
    obtain ⟨distance, hbyte, hget⟩ := hcell k _ hk
    exact ⟨distance, byteOf_jump hbyte, hget⟩
  · intro k i hk
    obtain ⟨b, hbyte, hget⟩ := hcell k _ hk
    obtain ⟨hlt, rfl⟩ := byteOf_temp hbyte
    exact ⟨_, getElem?_addresses.mpr ⟨hlt, rfl⟩, hget⟩
  · intro i hi
    exact ⟨getElem?_addresses.mpr ⟨hi, rfl⟩, hlow i hi, hbelow i hi,
      hknown _ 0 (.inl (h.free (Nat.le_add_right _ _) (hbelow i hi)))⟩
  · rw [addresses, List.map_map, List.Nodup, List.pairwise_map]
    refine List.pairwise_lt_range.imp_of_mem fun hi hj hlt heq ↦ ?_
    have hsame := congrArg UInt8.toNat heq
    dsimp only [Function.comp_apply] at hsame
    rw [hlow _ (List.mem_range.mp hi), hlow _ (List.mem_range.mp hj)] at hsame
    omega

end Assembly

/-- The code of an analysed program is on the image, with the halt at its end: the draft of the
program is complete, and there was room for its code and its texts. -/
structure Analysis.Emits (a : Analysis) (d : Draft) (s : Assembly) : Prop where
  drafted : ∃ root rest, a.tree = root :: rest ∧
    ((Stmt.ofTree root).draftProgram a.table).run {} = .ok () d
  assembled : (Assembly.lines d.lines.toList).run .start = .ok () s

/-- Where an executable is generated, the code was on the image and the slots had room. -/
theorem Analysis.exists_emits {a : Analysis} {exe : Executable}
    (h : (generate a).result = .ok exe) :
    ∃ d s, a.Emits d s ∧ s.image.position + d.slots.size ≤ s.image.heapStart := by
  obtain ⟨root, rest, d, t, htree, hdraft, hrun⟩ := generate_assembles h
  obtain ⟨_, s, hlines, _⟩ := run_bind_eq_ok.mp
    (show (Assembly.lines d.lines.toList >>= fun _ ↦ Assembly.finish a.table d).run .start =
      .ok exe t from hrun)
  obtain ⟨hposition, htop⟩ := Assembly.lines_sizes hlines
  obtain ⟨_, _, _, hsize⟩ := Assembly.assemble_sizes hrun
  rw [Draft.size] at hsize
  exact ⟨d, s, ⟨⟨root, rest, htree, hdraft⟩, hlines⟩, by omega⟩

/-- Once the code of a program is on the image and its slots have room, every cell is settled. -/
theorem emitted_patched (a : Analysis) (d : Draft) (s : Assembly) (h : a.Emits d s)
    (room : s.image.position + d.slots.size ≤ s.image.heapStart) :
    s.image.Regions (Line.symbolic (Assembly.address s.texts) d.lines.toList)
      (Assembly.heapCells s.texts) ∧
    ∃ exe t, (Assembly.finish a.table d).run s = .ok exe t ∧ (generate a).result = .ok exe ∧
      Assembly.Patched s d exe := by
  obtain ⟨⟨root, rest, htree, hdraft⟩, hlines⟩ := h
  obtain ⟨hfilled, -, -⟩ := Assembly.lines_ok Assembly.filled_start hlines
  rw [List.nil_append] at hfilled
  refine ⟨hfilled.regions, ?_⟩
  cases hfinish : (Assembly.finish a.table d).run s with
  | error e t =>
    have hfull :=
      (Assembly.finish_error hfilled (Stmt.draftProgram_settled hdraft) hfinish).2
    omega
  | ok exe t =>
    have hassemble : (Assembly.assemble a.table d none).run .start = .ok exe t :=
      run_bind_eq_ok.mpr ⟨(), s, hlines, hfinish⟩
    refine ⟨exe, t, rfl, ?_, ?_⟩
    · rw [generate_eq_report htree hdraft]
      exact Assembly.report_eq_ok.mpr ⟨t, hassemble⟩
    · have hrun := Assembly.run_finish a.table d s
      rw [if_neg (Nat.not_lt_of_le room)] at hrun
      cases hbytes : s.image.cells.mapM (Assembly.byteOf s.image.position d) with
      | error e =>
        rw [hbytes] at hrun
        obtain ⟨_, hrun⟩ := hrun
        rw [hrun] at hfinish
        cases hfinish
      | ok bytes =>
        rw [hbytes] at hrun
        obtain ⟨_, hrun⟩ := hrun
        rw [hrun] at hfinish
        cases hfinish
        exact hfilled.patched room hbytes

/-- Every cell of a source with many branches is settled. -/
theorem emitted_patched_branching : ∃ artifact d s, (compile branching).result = .ok artifact ∧
    artifact.analysis.Emits d s ∧ s.image.position + d.slots.size ≤ s.image.heapStart ∧
    ∃ exe t, (Assembly.finish artifact.analysis.table d).run s = .ok exe t ∧
      (generate artifact.analysis).result = .ok exe ∧ Assembly.Patched s d exe := by
  obtain ⟨artifact, h⟩ := compile_branching
  obtain ⟨_, _, _, hgenerate⟩ := compile_eq_ok h
  obtain ⟨d, s, hemits, room⟩ := Analysis.exists_emits hgenerate
  exact ⟨artifact, d, s, h, hemits, room,
    (emitted_patched artifact.analysis d s hemits room).2⟩

end OnePage
