import OnePage.Proofs.Evaluating

/-!
# Printing

A text of letters and blanks has one byte for each character, none of them zero, so the machine
prints it as it is. The code of a print statement prints the value of its expression, whatever way
the expression is printed, and keeps the slots that were taken before.
-/

namespace OnePage

/-- The characters of a text are below 128, and none is zero. -/
theorem isTextChar_bounds {c : Char} (h : isTextChar c) : 0 < c.toNat ∧ c.toNat ≤ 127 := by
  rw [isTextChar, Bool.or_eq_true] at h
  rcases h with h | h
  · rw [Scan.isLetter, Bool.and_eq_true] at h
    have hlow : 'a'.toNat ≤ c.toNat := of_decide_eq_true h.1
    have hhigh : c.toNat ≤ 'z'.toNat := of_decide_eq_true h.2
    have ha : 'a'.toNat = 97 := rfl
    have hz : 'z'.toNat = 122 := rfl
    omega
  · rw [of_decide_eq_true h]
    decide

/-- A text has one byte for each character. -/
theorem toUTF8_of_textChars {s : String} (h : ∀ c ∈ s.toList, isTextChar c) :
    s.toUTF8.data.toList = s.toList.map fun c ↦ UInt8.ofNat c.toNat := by
  rw [show s.toUTF8 = s.toList.utf8Encode from String.utf8Encode_toList.symm, List.utf8Encode,
    List.toList_data_toByteArray]
  generalize s.toList = cs at h
  induction cs with
  | nil => rfl
  | cons c cs ih =>
    have hc : String.utf8EncodeChar c = [UInt8.ofNat c.toNat] := by
      unfold String.utf8EncodeChar
      exact if_pos (isTextChar_bounds (h c (List.mem_cons_self ..))).2
    rw [List.flatMap_cons, hc, ih fun x hx ↦ h x (List.mem_cons_of_mem _ hx)]
    rfl

/-- The bytes of a text are its characters again. -/
theorem latinText_toUTF8 {s : String} (h : ∀ c ∈ s.toList, isTextChar c) :
    Machine.latinText s.toUTF8.data.toList = s := by
  rw [Machine.latinText, toUTF8_of_textChars h, List.map_map]
  have hmap : s.toList.map ((fun b : UInt8 ↦ Char.ofNat b.toNat) ∘ fun c ↦ UInt8.ofNat c.toNat) =
      s.toList := by
    refine (List.map_congr_left fun c hc ↦ ?_).trans (List.map_id _)
    have hlt : c.toNat < 256 := by
      have := (isTextChar_bounds (h c hc)).2
      omega
    rw [Function.comp_apply, UInt8.toNat_ofNat', Nat.mod_eq_of_lt hlt, Char.ofNat_toNat]
    rfl
  rw [hmap, String.ofList_toList]

/-- The bytes that stand on a page are found there. -/
theorem Page.Holds.prefix_drop {page : Page} {address : UInt8} {bytes : List UInt8}
    (h : page.Holds address.toNat bytes) (hend : address.toNat + bytes.length ≤ 256) :
    bytes <+: page.toList.drop address.toNat := by
  rw [List.prefix_iff_getElem?]
  intro k hk
  have hlt : address.toNat + k < 256 := by omega
  have hread := h k bytes[k] (List.getElem?_eq_getElem hk)
  rw [Page.read_ofNat page _ hlt] at hread
  rw [List.getElem?_drop, List.getElem?_eq_getElem (by rw [Vector.length_toList]; exact hlt),
    Vector.getElem_toList, hread]

/-- A text that stands on a page, followed by a zero, is read up to the zero. -/
theorem Page.textAt_eq {page : Page} {address : UInt8} {bytes : List UInt8}
    (h : page.Holds address.toNat (bytes ++ [0]))
    (hend : address.toNat + (bytes ++ [0]).length ≤ 256)
    (hne : ∀ x ∈ bytes, x ≠ 0) : page.textAt address = bytes := by
  obtain ⟨rest, hrest⟩ := h.prefix_drop hend
  rw [Page.textAt, ← hrest, List.append_assoc,
    List.takeWhile_append_of_pos fun x hx ↦ by simpa using hne x hx]
  simp

namespace Built

open Instruction Drafting Stmt

variable {b : Built} {d mid next : Draft} {m middle : Machine}

/-- A text on the page is read as it is. -/
theorem At.latinText (h : b.At d m) {s : String} (hplaced : (b.texts.lookup s).isSome)
    (hchars : ∀ c ∈ s.toList, isTextChar c) :
    Machine.latinText (m.memory.textAt (b.layout.address s)) = s := by
  obtain ⟨hholds, hlow, hend⟩ := b.linked.holds_text hplaced
  have hroom := b.linked.room
  have hmemory : m.memory.Holds (b.layout.address s).toNat (textBytes s) := by
    refine hholds.congr fun k hk ↦ h.carries _ (.inr ?_)
    rw [UInt8.toNat_ofNat', Nat.mod_eq_of_lt (by omega)]
    omega
  have hne : ∀ x ∈ s.toUTF8.data.toList, x ≠ 0 := by
    rw [toUTF8_of_textChars hchars]
    intro x hx hzero
    obtain ⟨c, hc, rfl⟩ := List.mem_map.mp hx
    have hbounds := isTextChar_bounds (hchars c hc)
    have hnat := congrArg UInt8.toNat hzero
    rw [UInt8.toNat_ofNat', Nat.mod_eq_of_lt (by omega)] at hnat
    simp at hnat
    omega
  rw [Page.textAt_eq hmemory hend hne, latinText_toUTF8 hchars]

/-- What the machine prints when it serves a call with the given number. -/
def serves (number : UInt8) (m : Machine) (said : String) : Prop :=
  number = 1 ∧ said = toString m.y.toNat ∨
    number = 2 ∧ said = Machine.latinText (m.memory.textAt m.y)

/-- A system call on the way prints what the machine serves. -/
theorem Moves.call (h : b.Moves d mid m middle) {number : UInt8} {said : String}
    (hserves : serves number middle said) (hrun : (callSystem number).run mid = .ok () next)
    (hl : next.Leads b.whole) :
    ∃ last, b.Crosses d next m last ∧ last.output = m.output ++ said := by
  rw [run_callSystem] at hrun
  cases hrun
  have hload := h.trans (h.arrives.emit hl.of_addLine rfl)
  have hstep := hload.arrives.step hl
  have hcall : ∃ last, (b.after mid (.ldx (.const number)) middle).step = (.running, last) ∧
      last.pc = UInt8.ofNat (size ((mid.addLine (.code (.ldx (.const number)))).addLine
        (.code .sys)).code) ∧
      last.memory = middle.memory ∧ last.output = middle.output ++ said := by
    rcases hserves with ⟨rfl, rfl⟩ | ⟨rfl, rfl⟩
    · exact ⟨_, hstep.trans (Machine.callSystem_one rfl), rfl, rfl, rfl⟩
    · exact ⟨_, hstep.trans (Machine.callSystem_two rfl), rfl, rfl, rfl⟩
  obtain ⟨last, hlast, hpc, hmemory, houtput⟩ := hcall
  obtain ⟨n, hn⟩ := hload.runs
  obtain ⟨hruns, hat⟩ := hload.arrives.runs hlast hmemory hpc
  refine ⟨last, ⟨⟨n + 1, hn.trans hruns⟩, hat, hload.slots, fun k hk hout ↦ ?_,
    fun address hout ↦ ?_⟩, ?_⟩
  · rw [slot, hmemory, ← slot, h.kept k hk hout]
  · rw [hmemory, h.outside address hout]
  · rw [houtput, h.output]

/-- Calling for a text prints it. -/
theorem Moves.call_text (h : b.Moves d mid m middle) {s : String}
    (hy : b.Represents (.text s) middle.y) (hrun : (callSystem 2).run mid = .ok () next)
    (hl : next.Leads b.whole) :
    ∃ last, b.Crosses d next m last ∧ last.output = m.output ++ s := by
  refine h.call (.inr ⟨rfl, ?_⟩) hrun hl
  rw [hy.1, h.arrives.latinText hy.2.1 hy.2.2]

/-- Calling for a number prints it. -/
theorem Moves.call_number (h : b.Moves d mid m middle) {n : UInt8} (hy : middle.y = n)
    (hrun : (callSystem 1).run mid = .ok () next) (hl : next.Leads b.whole) :
    ∃ last, b.Crosses d next m last ∧ last.output = m.output ++ (Datum.int n).shown :=
  h.call (.inl ⟨rfl, by rw [hy]; rfl⟩) hrun hl

/-- The words for truth values are texts. -/
theorem flagWord_chars (x : Bool) : ∀ c ∈ (flagWord x).toList, isTextChar c := by
  rw [← List.all_eq_true]
  cases x <;> decide +kernel

private theorem Moves.printText (h : b.Moves d mid m middle) (hmid : mid.WellFormed) {s : String}
    (hs : ∀ c ∈ s.toList, isTextChar c) (hrun : (printText s).run mid = .ok () next)
    (hl : next.Leads b.whole) :
    ∃ last, b.Crosses d next m last ∧ last.output = m.output ++ s := by
  rw [run_printText] at hrun
  have hload := (builds_callSystem (.inr rfl) _ next ((hmid.addLine _).addLine _) hrun).grows.leads
    hl
  have hplace := hload.of_addLine
  have hskip : b.Moves d (mid.addLine (.place s)) m middle :=
    h.trans (h.arrives.skip (by simp) (Nat.le_refl _))
  have hmoves := hskip.trans (hskip.arrives.emit hload rfl)
  exact hmoves.call_text ⟨rfl, placed hplace, hs⟩ hrun hl

private theorem Moves.printNumber (h : b.Moves d mid m middle) (hmid : mid.WellFormed) {slot : Nat}
    {n : UInt8} (hn : b.Represents (.int n) (b.slot middle slot))
    (hrun : (printNumber slot).run mid = .ok () next) (hl : next.Leads b.whole) :
    ∃ last, b.Crosses d next m last ∧ last.output = m.output ++ (Datum.int n).shown := by
  rw [run_printNumber] at hrun
  have hload := (builds_callSystem (.inl rfl) _ next (hmid.addLine _) hrun).grows.leads hl
  exact (h.trans (h.arrives.emit hload rfl)).call_number hn hrun hl

/-- Printing a truth value loads the word for it. -/
theorem Moves.printFlag (h : b.Moves d mid m middle) (hmid : mid.WellFormed) {slot : Nat}
    {x : Bool} (hx : b.Represents (.flag x) (b.slot middle slot)) (hslot : slot < mid.slots.size)
    (hrun : (printFlag slot).run mid = .ok () next) (hl : next.Leads b.whole) :
    ∃ last, b.Crosses d next m last ∧ last.output = m.output ++ (Datum.flag x).shown := by
  rw [run_printFlag] at hrun
  have hloaded := valuePiece_flagLoaded hmid hslot
  have hlyes := (builds_callSystem (.inr rfl) _ next hloaded.sound hrun).grows.leads hl
  have hlno := hlyes.of_addLine.of_addLine
  have hlcompare := hlno.of_addLine
  have hlone := hlcompare.of_addLine
  have hltexts := hlone.of_addLine
  have htexts : b.Moves d ((mid.addLine (.place (flagWord true))).addLine
      (.place (flagWord false))) m middle := h.trans (h.arrives.skip (by simp) (Nat.le_refl _))
  have hone := htexts.trans (htexts.arrives.emit hlone rfl)
  have hcompare := hone.trans (hone.arrives.emit hlcompare rfl)
  have hno := hcompare.trans (hcompare.arrives.emit hlno rfl)
  obtain ⟨last, hchoose, _, hy⟩ := hno.arrives.choose rfl rfl hlyes
  refine (hno.trans hchoose).call_text (s := flagWord x) ?_ hrun hl
  have hword : last.y = b.layout.address (flagWord x) := by
    rw [hy]
    change (if (1 == b.slot middle slot) then b.layout.address (flagWord true)
      else b.layout.address (flagWord false)) = _
    rw [show b.slot middle slot = Expr.bit x from hx]
    cases x <;> rfl
  have hplaced : (b.texts.lookup (flagWord x)).isSome := by
    cases x with
    | true => exact placed hltexts.of_addLine
    | false => exact placed hltexts
  exact ⟨hword, hplaced, flagWord_chars x⟩

/-- A variable is printed as its type says. -/
theorem Moves.printVariable (h : b.Moves d mid m middle) (hmid : mid.WellFormed) {v : Datum}
    {name : String} {slot : Nat} (hv : b.Represents v (b.slot middle slot))
    (hslot : slot < mid.slots.size) (hrun : (printVariable v.type name slot).run mid = .ok () next)
    (hl : next.Leads b.whole) :
    ∃ last, b.Crosses d next m last ∧ last.output = m.output ++ v.shown := by
  cases v with
  | int n => exact h.printNumber hmid hv hrun hl
  | flag x => exact h.printFlag hmid hv hslot hrun hl
  | text s =>
    have hload := (builds_callSystem (.inr rfl) (mid.addLine (.code (.ldyAt slot))) next
      (hmid.addLine _) hrun).grows.leads hl
    exact (h.trans (h.arrives.emit hload rfl)).call_text hv hrun hl

/-- The code of a print statement prints the value of its expression. -/
theorem printValue_runs {values : SymbolId → Datum → Prop} {table : ScopeTable} {e : Expr}
    {v : Datum} (h : e.Means values v)
    (typed : ∀ symbol name, e = .var symbol name → v.type = table.typeOf symbol)
    (hd : d.WellFormed) (hrun : (printValue table e).run d = .ok () next)
    (hl : next.Leads b.whole) (hat : b.At d m) (hstores : b.Stores (b.Valued values) d.homes m) :
    ∃ last, b.Crosses d next m last ∧ last.output = m.output ++ v.shown := by
  have hstart : b.Moves d d m m := hat.skip rfl (Nat.le_refl _)
  cases h with
  | digit n =>
    have hload := (builds_callSystem (.inl rfl) (d.addLine (.code (.ldy (.const n)))) next
      (hd.addLine _) hrun).grows.leads hl
    exact (hat.emit hload rfl).call_number rfl hrun hl
  | flag x => exact hstart.printText hd (flagWord_chars x) hrun hl
  | text hchars => exact hstart.printText hd hchars hrun hl
  | @var symbol name v hv =>
    obtain ⟨slot, hlookup, hprint⟩ := printValue_var_eq_ok.mp hrun
    rw [← typed symbol name rfl] at hprint
    exact hstart.printVariable hd (hstores symbol slot hlookup v hv) (hd.lookup_lt hlookup) hprint
      hl
  | sum hf hr =>
    obtain ⟨slot, mid, hslot, hprint⟩ := run_bind_eq_ok.mp hrun
    obtain ⟨hmid, hlt⟩ := Expr.builds_toSlot table _ d slot mid hd hslot
    have hlmid := (valuePiece_printNumber hmid.sound hlt hprint).grows.leads hl
    obtain ⟨middle, hmoves, hv⟩ :=
      fills_of_means table (.sum hf hr) d slot mid m hd hslot hlmid hat hstores
    exact hmoves.printNumber hmid.sound hv hprint hl
  | compare hleft hright htype =>
    obtain ⟨slot, mid, hslot, hprint⟩ := run_bind_eq_ok.mp hrun
    obtain ⟨hmid, hlt⟩ := Expr.builds_toSlot table _ d slot mid hd hslot
    have hlmid := (valuePiece_printFlag hmid.sound hlt hprint).grows.leads hl
    obtain ⟨middle, hmoves, hv⟩ :=
      fills_of_means table (.compare hleft hright htype) d slot mid m hd hslot hlmid hat hstores
    exact hmoves.printFlag hmid.sound hv hlt hprint hl

end Built

end OnePage
