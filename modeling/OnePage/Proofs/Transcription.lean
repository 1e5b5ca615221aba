import OnePage.Executable
import OnePage.Proofs.Outlining

/-!
# Bytes written down and read again

Pairs of digits with single spaces between them are read by a reader that takes nothing else, so it
reads a text as some bytes exactly if the text is what the bytes are written as. The dump of an
executable is the same pairs in ended rows of sixteen, each behind the offset of its first byte.
-/

namespace OnePage

/-! ### Pairs of digits -/

namespace Hex

/-- The digits in the order of their values. -/
def alphabet : List Char := "0123456789ABCDEF".toList

/-- The value of an upper-case digit. -/
def value? (c : Char) : Option Nat := alphabet.idxOf? c

/-- The text is two upper-case digits. -/
def IsPair (pair : List Char) : Prop := pair.length = 2 ∧ ∀ c ∈ pair, c ∈ alphabet

/-- The byte that two digits stand for, high digit first. -/
def readByte? : List Char → Option UInt8
  | [high, low] =>
    (value? high).bind fun h ↦ (value? low).map fun l ↦ UInt8.ofNat (16 * h + l)
  | _ => none

/-- The bytes that pairs of digits with single spaces between them stand for. -/
def readPairs? (text : String) : Option (List UInt8) := (text.toList.splitOn ' ').mapM readByte?

private theorem alphabet_eq : alphabet = (List.range 16).map digit := by decide

/-- A digit has a value just if it is the digit of this value. -/
theorem value?_eq_some_iff {c : Char} {n : Nat} : value? c = some n ↔ n < 16 ∧ c = digit n := by
  have hvalue : ∀ n < 16, value? (digit n) = some n := by decide
  constructor
  · intro h
    obtain ⟨hlt, hget, _⟩ := List.idxOf?_eq_some_iff.mp h
    simp only [alphabet_eq, List.getElem_map, List.getElem_range, List.length_map,
      List.length_range] at hlt hget
    exact ⟨hlt, hget.symm⟩
  · rintro ⟨hlt, rfl⟩
    exact hvalue n hlt

private theorem digit_mem_alphabet {n : Nat} (h : n < 16) : digit n ∈ alphabet := by
  rw [alphabet_eq]
  exact List.mem_map_of_mem (List.mem_range.mpr h)

private theorem isPair_byteDigits (b : UInt8) : IsPair (byteDigits b) := by
  have hlt := b.toNat_lt
  refine ⟨rfl, fun c hc ↦ ?_⟩
  rw [byteDigits, List.mem_cons, List.mem_singleton] at hc
  rcases hc with rfl | rfl
  · exact digit_mem_alphabet (by omega)
  · exact digit_mem_alphabet (by omega)

/-- No other character stands in a pair of digits. -/
theorem IsPair.not_mem {pair : List Char} (h : IsPair pair) {c : Char} (hc : c ∉ alphabet) :
    c ∉ pair :=
  fun hmem ↦ hc (h.2 c hmem)

/-- A text is read as a byte just if the byte is written so. -/
theorem readByte?_eq_some_iff {pair : List Char} {b : UInt8} :
    readByte? pair = some b ↔ pair = byteDigits b := by
  constructor
  · intro h
    unfold readByte? at h
    split at h
    · next high low =>
      obtain ⟨x, hx, hbyte⟩ := Option.bind_eq_some_iff.mp h
      obtain ⟨y, hy, rfl⟩ := Option.map_eq_some_iff.mp hbyte
      obtain ⟨hxlt, rfl⟩ := value?_eq_some_iff.mp hx
      obtain ⟨hylt, rfl⟩ := value?_eq_some_iff.mp hy
      have hn : (UInt8.ofNat (16 * x + y)).toNat = 16 * x + y := by
        rw [UInt8.toNat_ofNat']
        exact Nat.mod_eq_of_lt (by omega)
      rw [byteDigits, hn, show (16 * x + y) / 16 = x by omega, show (16 * x + y) % 16 = y by omega]
    · cases h
  · rintro rfl
    have hlt := b.toNat_lt
    have hhigh : value? (digit (b.toNat / 16)) = some (b.toNat / 16) :=
      value?_eq_some_iff.mpr ⟨by omega, rfl⟩
    have hlow : value? (digit (b.toNat % 16)) = some (b.toNat % 16) :=
      value?_eq_some_iff.mpr ⟨by omega, rfl⟩
    rw [byteDigits, readByte?, hhigh, Option.bind_some, hlow, Option.map_some, Nat.div_add_mod,
      UInt8.ofNat_toNat]

private theorem toList_pairs (bytes : List UInt8) :
    (pairs bytes).toList = [' '].intercalate (bytes.map byteDigits) := by
  have hbyte : String.toList ∘ byte = byteDigits := by
    funext b
    exact String.toList_ofList
  rw [pairs, String.toList_intercalate, List.map_map, hbyte]
  rfl

/-- Between the spaces stand the pairs. -/
theorem splitOn_pairs {bytes : List UInt8} (h : bytes ≠ []) :
    (pairs bytes).toList.splitOn ' ' = bytes.map byteDigits := by
  rw [toList_pairs]
  apply List.splitOn_intercalate
  · intro pair hpair
    obtain ⟨b, _, rfl⟩ := List.mem_map.mp hpair
    exact (isPair_byteDigits b).not_mem (by decide)
  · exact fun hnil ↦ h (List.map_eq_nil_iff.mp hnil)

/-- A text is read as some bytes just if they are written so. -/
theorem readPairs?_eq_some_iff {text : String} {bytes : List UInt8} (h : bytes ≠ []) :
    readPairs? text = some bytes ↔ text = pairs bytes := by
  rw [readPairs?, mapM_eq_some_iff fun _ _ ↦ readByte?_eq_some_iff]
  constructor
  · intro hsplit
    rw [← String.toList_inj, toList_pairs, ← hsplit, List.intercalate_splitOn]
  · rintro rfl
    exact splitOn_pairs h

/-- In the text of some bytes there are digits and spaces only. -/
theorem mem_pairs {bytes : List UInt8} {c : Char} (h : c ∈ (pairs bytes).toList) :
    c = ' ' ∨ c ∈ alphabet := by
  rw [toList_pairs] at h
  rcases mem_of_mem_intercalate h with hspace | ⟨pair, hpair, hc⟩
  · exact .inl (List.mem_singleton.mp hspace)
  · obtain ⟨b, _, rfl⟩ := List.mem_map.mp hpair
    exact .inr ((isPair_byteDigits b).2 c hc)

end Hex

/-! ### Executables -/

namespace Executable

/-- A row of the dump without what stands before its pairs. -/
def withoutOffset (row : String) : String := String.ofList (row.toList.drop 4)

/-- The row is the offset of its first byte, a colon, a space, and the sixteen bytes from there. -/
def IsRow (e : Executable) (r : Nat) (row : String) : Prop :=
  ∃ offset shown start bytes, row = offset ++ ": " ++ shown ∧
    Hex.readPairs? offset = some [start] ∧ start.toNat = 16 * r ∧
    Hex.readPairs? shown = some bytes ∧ bytes.length = 16 ∧
    ∀ k < 16, bytes[k]? = e.bytes.toList[16 * r + k]?

/-- The bytes of a row. -/
def rowBytes (e : Executable) (r : Nat) : List UInt8 := (e.bytes.toList.drop (16 * r)).take 16

/-- The rows of the dump, not ended. -/
def rows (e : Executable) : List String :=
  (List.range 16).map fun r ↦
    Hex.pairs [UInt8.ofNat (16 * r)] ++ ": " ++ Hex.pairs (e.rowBytes r)

variable {e other : Executable} {r : Nat}

private theorem length_rowBytes (e : Executable) (h : r < 16) : (e.rowBytes r).length = 16 := by
  rw [rowBytes, List.length_take, List.length_drop, Vector.length_toList]
  omega

private theorem rowBytes_ne_nil (e : Executable) (h : r < 16) : e.rowBytes r ≠ [] :=
  List.ne_nil_of_length_pos (by rw [length_rowBytes e h]; decide)

private theorem bytes_ne_nil (e : Executable) : e.bytes.toList ≠ [] :=
  List.ne_nil_of_length_pos (by rw [Vector.length_toList]; decide)

private theorem padded_offset :
    ∀ r < 16, Hex.padded 2 (16 * r) = Hex.pairs [UInt8.ofNat (16 * r)] := by
  decide

/-- The dump is its rows, each ended. -/
theorem hexDump_eq (e : Executable) : e.hexDump = Outline.textOf e.rows := by
  have hrow : ∀ r ∈ List.range 16, dumpRow e.bytes.toList r =
      Hex.pairs [UInt8.ofNat (16 * r)] ++ ": " ++ Hex.pairs (e.rowBytes r) ++ "\n" := by
    intro r hr
    rw [dumpRow, padded_offset r (List.mem_range.mp hr), rowBytes]
  rw [hexDump, Outline.textOf, rows, List.map_map, List.map_congr_left hrow]
  simp only [Function.comp_def]

private theorem isRow_of_getElem? {row : String} (h : e.rows[r]? = some row) : e.IsRow r row := by
  rw [rows, List.getElem?_map, Option.map_eq_some_iff] at h
  obtain ⟨s, hs, rfl⟩ := h
  obtain ⟨hlt, rfl⟩ := List.getElem?_eq_some_iff.mp hs
  rw [List.length_range] at hlt
  rw [List.getElem_range]
  refine ⟨_, _, UInt8.ofNat (16 * r), e.rowBytes r, rfl,
    (Hex.readPairs?_eq_some_iff (List.cons_ne_nil _ _)).mpr rfl, ?_,
    (Hex.readPairs?_eq_some_iff (e.rowBytes_ne_nil hlt)).mpr rfl, e.length_rowBytes hlt, ?_⟩
  · rw [UInt8.toNat_ofNat']
    exact Nat.mod_eq_of_lt (by omega)
  · intro k hk
    rw [rowBytes, List.getElem?_take_of_lt hk, List.getElem?_drop]

private theorem newline_not_mem_row {row : String} (h : row ∈ e.rows) : '\n' ∉ row.toList := by
  have hpairs : ∀ bytes, '\n' ∉ (Hex.pairs bytes).toList := by
    intro bytes hmem
    rcases Hex.mem_pairs hmem with hspace | hdigit
    · exact absurd hspace (by decide)
    · exact absurd hdigit (by decide)
  obtain ⟨r, _, rfl⟩ := List.mem_map.mp h
  simp [hpairs]

private theorem withoutOffset_row (b : UInt8) (bytes : List UInt8) :
    withoutOffset (Hex.pairs [b] ++ ": " ++ Hex.pairs bytes) = Hex.pairs bytes := by
  have hfour : (Hex.pairs [b] ++ ": ").toList.length = 4 := by
    rw [String.toList_append, List.length_append, Hex.toList_pairs]
    rfl
  rw [withoutOffset, String.toList_append, List.drop_left' hfour, String.ofList_toList]

private theorem map_withoutOffset (e : Executable) :
    e.rows.map withoutOffset = (List.range 16).map fun r ↦ Hex.pairs (e.rowBytes r) := by
  rw [rows, List.map_map]
  simp only [Function.comp_def, withoutOffset_row]

/-- The rows hold all bytes in order. -/
theorem flatMap_rowBytes (e : Executable) :
    (List.range 16).flatMap e.rowBytes = e.bytes.toList := by
  have hall : e.bytes.toList.take (16 * 16) = e.bytes.toList :=
    List.take_of_length_le (Nat.le_of_eq Vector.length_toList)
  rw [← hall, ← flatMap_groups]
  rfl

/-- The rows without their offsets are joined to the text of all bytes. -/
theorem join_withoutOffset (e : Executable) :
    " ".intercalate (e.rows.map withoutOffset) = e.toHex := by
  have hspace : " ".toList = [' '] := rfl
  have hgroups : ∀ group ∈ (List.range 16).map fun r ↦ (e.rowBytes r).map Hex.byteDigits,
      group ≠ [] := by
    intro group hgroup
    obtain ⟨r, hr, rfl⟩ := List.mem_map.mp hgroup
    exact fun hnil ↦ e.rowBytes_ne_nil (List.mem_range.mp hr) (List.map_eq_nil_iff.mp hnil)
  have hjoin := intercalate_flatten [' '] hgroups
  rw [← List.flatMap_def, ← List.map_flatMap, flatMap_rowBytes, List.map_map] at hjoin
  rw [← String.toList_inj, String.toList_intercalate, map_withoutOffset, List.map_map, hspace,
    toHex, Hex.toList_pairs, ← hjoin]
  simp only [Function.comp_def, Hex.toList_pairs]

private theorem toHex_inj : e.toHex = other.toHex ↔ e.bytes = other.bytes := by
  constructor
  · intro h
    have hread := (Hex.readPairs?_eq_some_iff e.bytes_ne_nil).mpr h.symm
    have hother := (Hex.readPairs?_eq_some_iff other.bytes_ne_nil).mpr rfl
    rw [toHex] at hread
    exact Vector.toList_inj.mp (Option.some.inj (hread.symm.trans hother))
  · intro h
    rw [toHex, h, toHex]

private theorem hexDump_inj : e.hexDump = other.hexDump ↔ e.bytes = other.bytes := by
  constructor
  · intro h
    rw [hexDump_eq, hexDump_eq] at h
    have hrows := Outline.lines_of_text (fun _ ↦ newline_not_mem_row)
      (fun _ ↦ newline_not_mem_row) h
    rw [← toHex_inj, ← e.join_withoutOffset, hrows, other.join_withoutOffset]
  · intro h
    rw [hexDump, h, hexDump]

/-- The text of an executable is a pair of digits for each of its bytes, and is the one text that is
read as these bytes. Its dump is sixteen ended rows, which without their offsets are the same text.
Either of them tells the bytes. -/
theorem hex_texts_lossless (e : Executable) :
    ((e.toHex.toList.splitOn ' ').length = 256 ∧
      (∀ pair ∈ e.toHex.toList.splitOn ' ', Hex.IsPair pair) ∧
      ∀ text, Hex.readPairs? text = some e.bytes.toList ↔ text = e.toHex) ∧
    (∃ rows, rows.length = 16 ∧ e.hexDump = Outline.textOf rows ∧
      (∀ row ∈ rows, '\n' ∉ row.toList) ∧ (∀ r row, rows[r]? = some row → e.IsRow r row) ∧
      " ".intercalate (rows.map withoutOffset) = e.toHex) ∧
    ∀ other : Executable, (e.toHex = other.toHex ↔ e.bytes = other.bytes) ∧
      (e.hexDump = other.hexDump ↔ e.bytes = other.bytes) := by
  have hsplit : e.toHex.toList.splitOn ' ' = e.bytes.toList.map Hex.byteDigits :=
    Hex.splitOn_pairs e.bytes_ne_nil
  refine ⟨⟨?_, ?_, fun _ ↦ Hex.readPairs?_eq_some_iff e.bytes_ne_nil⟩, ?_,
    fun _ ↦ ⟨toHex_inj, hexDump_inj⟩⟩
  · rw [hsplit, List.length_map, Vector.length_toList]
  · intro pair hpair
    rw [hsplit] at hpair
    obtain ⟨b, _, rfl⟩ := List.mem_map.mp hpair
    exact Hex.isPair_byteDigits b
  · refine ⟨e.rows, ?_, e.hexDump_eq, fun _ ↦ newline_not_mem_row, fun _ _ ↦ isRow_of_getElem?,
      e.join_withoutOffset⟩
    rw [rows, List.length_map, List.length_range]

end Executable

end OnePage
