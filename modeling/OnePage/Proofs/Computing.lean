import OnePage.Proofs.Evaluating
import OnePage.Proofs.Landing

/-!
# What the code of expressions computes

Each node of a program that is evaluated has a byte, found from the addresses of texts and the bytes
in the slots of variables. Wherever the code for a node stands in an image, it leaves that byte in
the accumulator or in a slot, whatever else is in the memory and in the registers. It writes only
slots that were taken for it, and so none of a variable or of an expression around it.
-/

namespace OnePage

/-- The address of a slot in an image: the slots are right above the code. -/
def Executable.slot (exe : Executable) (k : Nat) : UInt8 := UInt8.ofNat (exe.codeLen + k)

/-- The bytes of the variables that are declared in a draft, in the memory of a machine. -/
def Draft.values (d : Draft) (exe : Executable) (m : Machine) (symbol : SymbolId) : UInt8 :=
  m.memory.read (exe.slot ((d.homes.lookup symbol).getD 0))

/-- The machine gets to where a part of the program ends, prints nothing and writes only slots that
were taken from one draft to another; so slots that were taken before or after, those of all
variables and the zero slot are as they were. -/
structure Executable.Passes (exe : Executable) (whole first last : Draft) (m after : Machine) :
    Prop where
  runs : ∃ n, Machine.Runs n m after
  arrives : after.pc.toNat = last.codeSize
  output : after.output = m.output
  fresh : ∀ address : UInt8, after.memory.read address ≠ m.memory.read address →
    ∃ k, first.slots.size ≤ k ∧ k < last.slots.size ∧ address = exe.slot k
  others : ∀ k < whole.slots.size, k < first.slots.size ∨ last.slots.size ≤ k →
    after.memory.read (exe.slot k) = m.memory.read (exe.slot k)
  homes : ∀ v ∈ whole.homes, after.memory.read (exe.slot v.2) = m.memory.read (exe.slot v.2)
  zero : ∀ z, whole.zero = some z →
    after.memory.read (exe.slot z) = m.memory.read (exe.slot z)

/-- The code that a call on an expression adds computes a node. It can be run on any machine that
has the code and the texts of the image in its memory and is at the first byte of that code; it ends
just after that code, with the byte of the node in the accumulator or in the slot that the call
gives. -/
def Call.Computes (table : ScopeTable) (exe : Executable) (address : String → UInt8)
    (whole first : Draft) (t : Tree Resolved) : Call → Prop
  | .draft _ => False
  | .load e => ∃ last, (e.load table).run first = .ok () last ∧
    ∀ m, m.Carries exe → m.pc.toNat = first.codeSize → ∃ after,
      exe.Passes whole first last m after ∧
        t.byte? address (first.values exe m) = some after.a
  | .toSlot e => ∃ slot last, (e.toSlot table).run first = .ok slot last ∧
    ∀ m, m.Carries exe → m.pc.toNat = first.codeSize → ∃ after,
      exe.Passes whole first last m after ∧
        t.byte? address (first.values exe m) = some (after.memory.read (exe.slot slot))

namespace Built

open OnePage.Expr

section Bytes

variable (b : Built) (values : SymbolId → UInt8) (table : ScopeTable)

mutual

/-- The code that loads an expression leaves its byte in the accumulator. -/
theorem loads_byte (e : Expr) : b.Loads (fun symbol byte ↦ byte = values symbol)
    (load table e) (· = e.byte b.layout.address values) := by
  cases e with
  | digit n => exact loads_const rfl
  | flag x => exact loads_const rfl
  | text s => exact loads_text fun _ ↦ rfl
  | var symbol name => exact loads_var fun _ hbyte ↦ hbyte
  | sum first rest => exact loads_sum (loads_byte first) (loadsAll_bytes rest)
  | compare equal x y =>
    refine loads_compare (fills_byte x) (fills_byte y) ?_
    rintro _ _ rfl rfl
    rfl
  | oddCompare operator | invalid err =>
    intro d next m _ hrun
    cases hrun

/-- The code that puts an expression into a slot leaves its byte there. -/
theorem fills_byte (e : Expr) : b.Fills (fun symbol byte ↦ byte = values symbol)
    (toSlot table e) (· = e.byte b.layout.address values) := by
  cases e with
  | digit n => exact fills_keep (loads_const rfl)
  | flag x => exact fills_keep (loads_const rfl)
  | text s => exact fills_keep (loads_text fun _ ↦ rfl)
  | var symbol name => exact fills_var fun _ hbyte ↦ hbyte
  | sum first rest => exact fills_sum (loads_byte first) (loadsAll_bytes rest)
  | compare equal x y =>
    rw [toSlot_compare]
    refine fills_keep (loads_compare (fills_byte x) (fills_byte y) ?_)
    rintro _ _ rfl rfl
    rfl
  | oddCompare operator | invalid err =>
    intro d slot next m _ hrun
    cases hrun

private theorem loadsAll_bytes (es : List Expr) :
    LoadsAll b (fun symbol byte ↦ byte = values symbol)
    (loads table es) (bytes b.layout.address values es) := by
  cases es with
  | nil => exact .nil
  | cons e es => exact .cons ⟨loads_byte e, builds_load table e⟩ (loadsAll_bytes es)

end

end Bytes

variable {b : Built} {d first last : Draft} {m after : Machine}

private theorem exe_slot (k : Nat) : b.exe.slot k = b.layout.slot k := by
  rw [Executable.slot, Layout.slot, b.linked.base]

/-- A byte that was changed on the way is in a slot that was taken on the way. -/
theorem Crosses.changed (h : b.Crosses first last m after) {address : UInt8}
    (hne : after.memory.read address ≠ m.memory.read address) :
    ∃ k, first.slots.size ≤ k ∧ k < last.slots.size ∧ address = b.exe.slot k := by
  have hstatic : b.exe.codeLen ≤ address.toNat ∧
      address.toNat < b.exe.codeLen + b.exe.staticLen := by
    by_contra hout
    exact hne (h.outside address (by omega))
  have haddress : address = b.exe.slot (address.toNat - b.exe.codeLen) := by
    rw [Executable.slot, Nat.add_sub_cancel' hstatic.1, UInt8.ofNat_toNat]
  have hslots := b.linked.staticLen
  have hrange : first.slots.size ≤ address.toNat - b.exe.codeLen ∧
      address.toNat - b.exe.codeLen < last.slots.size := by
    by_contra hout
    rw [haddress, exe_slot] at hne
    exact hne (h.kept _ (by omega) (by omega))
  exact ⟨_, hrange.1, hrange.2, haddress⟩

/-- A move over the code of an expression passes it. -/
theorem Moves.passes (hbody : b.body = d.code) (hd : d.Leads b.whole) (hfirst : first.WellFormed)
    (hlast : ValuePiece first last) (hl : last.Leads d) (h : b.Moves first last m after) :
    b.exe.Passes b.whole first last m after := by
  have hkept : ∀ k < b.whole.slots.size, k < first.slots.size ∨ last.slots.size ≤ k →
      after.memory.read (b.exe.slot k) = m.memory.read (b.exe.slot k) := by
    intro k hk hout
    rw [exe_slot]
    exact h.kept k hk hout
  have hwhole := hl.trans hd
  refine ⟨h.runs, ?_, h.output, fun _ ↦ h.changed, hkept, fun v hv ↦ ?_, fun z hz ↦ ?_⟩
  · have hlt := codeSize_lt hbody hl
    rw [h.arrives.pc, ← Draft.codeSize_eq, UInt8.toNat_ofNat', Nat.mod_eq_of_lt hlt]
  · -- A variable had its slot before the expression or got it after.
    refine hkept v.2 (b.sound.home_lt v hv) ((hwhole.homesLater v hv).imp_left fun hmem ↦ ?_)
    rw [hlast.homes_eq] at hmem
    exact hfirst.home_lt v hmem
  · refine hkept z (b.sound.zero_lt z hz) ((hwhole.zeroLater z hz).imp_left fun hzero ↦ ?_)
    rw [hlast.zero_eq] at hzero
    exact hfirst.zero_lt z hzero

/-- A machine at the first byte of the code of a part is there. -/
theorem at_of_pc (hcarries : m.Carries b.exe) (hpc : m.pc.toNat = first.codeSize) :
    b.At first m := by
  refine ⟨hcarries, ?_⟩
  rw [← Draft.codeSize_eq, ← hpc, UInt8.ofNat_toNat]

/-- The slots of the variables hold their bytes. -/
theorem stores_values (first : Draft) (m : Machine) :
    b.Stores (fun symbol byte ↦ byte = first.values b.exe m symbol) first.homes m := by
  intro symbol slot hlookup
  rw [Draft.values, hlookup, exe_slot]
  rfl

/-- A call of the program on the expression of a node computes the node. -/
theorem computes {table : ScopeTable} (hbody : b.body = d.code) (hd : d.Leads b.whole) {call : Call}
    (h : Call.Returned table d (call, first)) {t : Tree Resolved}
    (ht : call.value? = some (Expr.ofTree t)) :
    call.Computes table b.exe b.layout.address b.whole first t := by
  have hbyte (m : Machine) := t.byte?_eq b.layout.address (first.values b.exe m)
    (Call.sound_of_returned h ht)
  obtain ⟨hfirst, last, hreturns, hl⟩ := h
  cases call with
  | draft s => cases ht
  | load e =>
    cases ht
    refine ⟨last, hreturns, fun m hcarries hpc ↦ ?_⟩
    obtain ⟨after, hmoves, ha⟩ := loads_byte b _ table _ first last m hfirst hreturns
      (hl.trans hd) (at_of_pc hcarries hpc) (stores_values first m)
    exact ⟨after, hmoves.passes hbody hd hfirst
      (builds_load table _ first last hfirst hreturns) hl, by rw [hbyte, ha]⟩
  | toSlot e =>
    cases ht
    obtain ⟨slot, hslot⟩ := hreturns
    refine ⟨slot, last, hslot, fun m hcarries hpc ↦ ?_⟩
    obtain ⟨after, hmoves, hread⟩ := fills_byte b _ table _ first slot last m hfirst hslot
      (hl.trans hd) (at_of_pc hcarries hpc) (stores_values first m)
    refine ⟨after, hmoves.passes hbody hd hfirst
      (builds_toSlot table _ first slot last hfirst hslot).1 hl, ?_⟩
    rw [hbyte, exe_slot, ← hread]
    rfl

/-- A text that is loaded stands at its address. -/
theorem loaded_text {table : ScopeTable} (hd : d.Leads b.whole) {s : String}
    (h : Call.Returned table d (.load (.text s), first)) :
    b.exe.bytes.Holds (b.layout.address s).toNat (textBytes s) ∧
      b.exe.heapStart ≤ (b.layout.address s).toNat := by
  obtain ⟨_, last, hload, hl⟩ := h
  change (loadText s).run first = .ok () last at hload
  rw [run_loadText] at hload
  cases hload
  have hheld := b.linked.holds_text (placed (hl.trans hd).of_addLine)
  exact ⟨hheld.1, hheld.2.1⟩

end Built

/-- What is neither a variable nor a sum is computed by loading it. -/
private theorem Call.eq_load {call : Call} {e : Expr} (h : call.computed? = some e)
    (hvar : ∀ symbol name, e ≠ .var symbol name) (hsum : ∀ first rest, e ≠ .sum first rest) :
    call = .load e := by
  cases call with
  | draft _ => cases h
  | load _ =>
    cases h
    rfl
  | toSlot value =>
    cases value with
    | var symbol name =>
      cases h
      exact absurd rfl (hvar symbol name)
    | sum first rest =>
      cases h
      exact absurd rfl (hsum first rest)
    | _ => cases h

/-- The code of expressions is right in every image that is generated, and touches only slots taken
for it. The expressions that are computed are those of the nodes that are evaluated, in their order,
and each call on one leaves the byte of the node. The byte of a sum is the total of its terms, none
of which is a sum; texts stand at their addresses among the texts of the image. -/
theorem generate_computes (a : Analysis) (exe : Executable) (h : (generate a).result = .ok exe) :
    ∃ root rest whole address, a.tree = root :: rest ∧
      ((Stmt.ofTree root).draftProgram a.table).run {} = .ok () whole ∧
      exe.staticLen = whole.slots.size ∧
      Call.values ((Stmt.ofTree root).trace a.table) = root.evaluated.map Expr.ofTree ∧
      (∀ t ∈ root.evaluated, ∀ s position, t.label.node = .literal s position →
        exe.bytes.Holds (address s).toNat (textBytes s) ∧ exe.heapStart ≤ (address s).toNat) ∧
      (∀ t ∈ root.evaluated, ∀ values,
        t.byte? address values = (Forest.bytes? address values t.addends).map totalByte ∧
          ∀ u ∈ t.addends, u.label.isSum = false) ∧
      ∀ call first e, (call, first) ∈ (Stmt.ofTree root).trace a.table → call.value? = some e →
        (∃ t ∈ root.evaluated, Expr.ofTree t = e) ∧
          ∀ t ∈ root.evaluated, Expr.ofTree t = e →
            call.Computes a.table exe address whole first t := by
  obtain ⟨root, rest, b, d, htree, rfl, hwhole, hbody, hprogram⟩ := generate_built h
  have hd : d.Leads b.whole := hwhole ▸ d.extends_closed.leads (.refl _)
  have hreturned := Stmt.returned_trace hprogram
  refine ⟨root, rest, b.whole, b.layout.address, htree, ?_, b.linked.staticLen,
    Tree.values_of_drafted hprogram, fun t ht s position hliteral ↦ ?_,
    fun t _ values ↦ ⟨t.byte?_addends _ values, t.isSum_of_mem_addends⟩,
    fun call first e hcall he ↦ ⟨Tree.exists_evaluated hprogram hcall he, ?_⟩⟩
  · rw [hwhole]
    exact Stmt.draftProgram_eq_ok.mpr ⟨d, hprogram, rfl⟩
  · obtain ⟨call, first, hcall, hcomputed⟩ := Tree.exists_call hprogram ht
    rw [Expr.ofTree_literal hliteral] at hcomputed
    exact Built.loaded_text hd (Call.eq_load hcomputed nofun nofun ▸ hreturned _ hcall)
  · rintro t - rfl
    exact Built.computes hbody hd (hreturned _ hcall) he

/-- Two sums that are nested on either side are equal, and the code that compares them leaves one in
the accumulator of any machine. -/
theorem generate_computes_comparing : ∃ exe whole address first last,
    (generate comparing).result = .ok exe ∧ equalSums ∈ comparingRoot.evaluated ∧
      (∀ values, sumRight.byte? address values = some 6 ∧
        equalSums.byte? address values = some 1) ∧
      (.load (Expr.ofTree equalSums), first) ∈
        (Stmt.ofTree comparingRoot).trace comparing.table ∧
      ((Expr.ofTree equalSums).load comparing.table).run first = .ok () last ∧
      ∀ m, m.Carries exe → m.pc.toNat = first.codeSize → ∃ after,
        exe.Passes whole first last m after ∧ after.a = 1 := by
  obtain ⟨exe, _, hexe, _, _⟩ := generate_comparing
  obtain ⟨root, rest, whole, address, htree, _, _, hvalues, _, _, hcomputes⟩ :=
    generate_computes comparing exe hexe
  cases htree
  have hmem : equalSums ∈ comparingRoot.evaluated := .tail _ (.tail _ (.head _))
  have hbytes (values : SymbolId → UInt8) : sumRight.byte? address values = some 6 ∧
      equalSums.byte? address values = some 1 := ⟨rfl, rfl⟩
  have hcall : ∃ first, (.load (Expr.ofTree equalSums), first) ∈
      (Stmt.ofTree comparingRoot).trace comparing.table := by
    have hvalue := List.mem_map_of_mem (f := Expr.ofTree) hmem
    rw [← hvalues] at hvalue
    obtain ⟨⟨call, first⟩, hcall, hcomputed⟩ := List.mem_filterMap.mp hvalue
    exact ⟨first, Call.eq_load hcomputed nofun nofun ▸ hcall⟩
  obtain ⟨first, hcall⟩ := hcall
  obtain ⟨last, hload, hruns⟩ := (hcomputes _ _ _ hcall rfl).2 equalSums hmem rfl
  refine ⟨exe, whole, address, first, last, hexe, hmem, hbytes, hcall, hload, fun m hm hpc ↦ ?_⟩
  obtain ⟨after, hpasses, hbyte⟩ := hruns m hm hpc
  rw [(hbytes _).2] at hbyte
  exact ⟨after, hpasses, (Option.some.inj hbyte).symm⟩

end OnePage
