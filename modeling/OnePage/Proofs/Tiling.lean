import OnePage.Proofs.Executing
import OnePage.Proofs.WellTyped

/-!
# The structure of an image

The listing of an image that is generated covers its code byte by byte, from offset zero to the one
halt at the end. The addresses in it are those of the static region, and its branches go to offsets
of the listing. All of this is read off the body of the program that was built, whose code is closed
and whose bytes stand on the page.
-/

namespace OnePage

open Instruction

/-! ### Listings -/

/-- The instructions of a listing cover the bytes from `start` to `stop`: the first is at `start`,
each further one is where the one before it ends, and the last one ends at `stop`. -/
def Listing.Tiles : Nat → Nat → List (Nat × Instruction UInt8 UInt8) → Prop
  | start, stop, [] => start = stop
  | start, stop, (offset, i) :: rest => offset = start ∧ Tiles (offset + i.width) stop rest

/-- Code with its offsets covers as many bytes as it has. -/
theorem Listing.tiles_offsets (start : Nat) (code : List (Instruction UInt8 UInt8)) :
    Tiles start (start + size code) (offsets start code) := by
  induction code generalizing start with
  | nil => rfl
  | cons i code ih =>
    rw [size_cons, ← Nat.add_assoc]
    exact ⟨rfl, ih (start + i.width)⟩

namespace Instruction

/-- The second of two pieces of code is where the first ends. -/
theorem offsets_append (start : Nat) (xs ys : List (Instruction UInt8 UInt8)) :
    offsets start (xs ++ ys) = offsets start xs ++ offsets (start + size xs) ys := by
  induction xs generalizing start with
  | nil => rfl
  | cons i xs ih =>
    rw [List.cons_append, offsets, ih, size_cons, Nat.add_assoc]
    rfl

/-- An instruction is listed at an offset if the code before it ends there. -/
theorem mem_offsets {start offset : Nat} {code : List (Instruction UInt8 UInt8)}
    {i : Instruction UInt8 UInt8} : (offset, i) ∈ offsets start code ↔
      ∃ front back, code = front ++ i :: back ∧ offset = start + size front := by
  constructor
  · intro h
    induction code generalizing start with
    | nil => cases h
    | cons j code ih =>
      rcases List.mem_cons.mp h with he | h
      · cases he
        exact ⟨[], code, rfl, rfl⟩
      · obtain ⟨front, back, rfl, rfl⟩ := ih h
        exact ⟨j :: front, back, rfl, by rw [size_cons, Nat.add_assoc]⟩
  · rintro ⟨front, back, rfl, rfl⟩
    exact mem_offsets_append start front i back

end Instruction

/-! ### Images -/

/-- The listing of an executable covers its code, halts at its end only, addresses the static
region only and branches to its own offsets only; the regions follow each other on the page. -/
structure Executable.Structured (exe : Executable)
    (listing : List (Nat × Instruction UInt8 UInt8)) : Prop where
  listed : Listing.ofBytes exe.bytes.toArray = .ok listing
  tiles : Listing.Tiles 0 exe.codeLen listing
  halts : ∃ front, listing = front ++ [(exe.codeLen - 1, .brk)] ∧ ∀ entry ∈ front, entry.2 ≠ .brk
  addresses : ∀ entry ∈ listing, ∀ address, entry.2.operand = .address address →
    exe.codeLen ≤ address.toNat ∧ address.toNat < exe.codeLen + exe.staticLen
  branches : ∀ entry ∈ listing, ∀ distance, entry.2 = .bne distance →
    ∃ target ∈ listing, target.1 = (entry.1 + 2 + distance.toNat) % 256
  regions : exe.codeLen + exe.staticLen ≤ exe.heapStart ∧ exe.heapStart ≤ 256

namespace Built

variable (b : Built)

/-- The code of the program, as it stands on the page. -/
def final : List (Instruction UInt8 UInt8) := b.layout.resolveAll b.body ++ [.brk]

private theorem size_final : size b.final = b.exe.codeLen := by
  rw [final, size_append, b.layout.size_resolveAll, b.linked.codeLen, b.code_eq, size_append]
  rfl

/-- The page is listed as the code of the program, each instruction at its offset. -/
theorem listed_final :
    Listing.ofBytes b.exe.bytes.toArray = .ok (offsets 0 b.final) := by
  have hends := b.secure.ends
  have hfits := b.secure.fits
  exact Listing.ofBytesFrom_holds b.exe.bytes _ 0 b.secure.closed.runsOn (by omega) b.secure.held

variable {b}

/-- The program is listed below the end of the page. -/
theorem listed_lt {i : Instruction UInt8 UInt8} {offset : Nat}
    (h : (offset, i) ∈ offsets 0 b.final) : offset < 256 := by
  obtain ⟨front, back, hcode, rfl⟩ := mem_offsets.mp h
  have hlen := b.size_final
  have hfits := b.secure.fits
  have hwidth := i.width_pos
  rw [hcode, size_append, size_cons] at hlen
  omega

/-- An instruction of the program other than the halt is one of its body. -/
theorem mem_body {i : Instruction UInt8 UInt8} {offset : Nat}
    (h : (offset, i) ∈ offsets 0 b.final) (hi : i ≠ .brk) :
    ∃ front back, b.layout.resolveAll b.body = front ++ i :: back ∧ offset = size front := by
  obtain ⟨front, back, hcode, rfl⟩ := mem_offsets.mp h
  obtain ⟨init, hbody⟩ := (Machine.eq_brk_or_split hcode).resolve_left hi
  exact ⟨front, init, hbody, Nat.zero_add _⟩

/-- A branch of the program goes to the offset of one of its instructions. -/
theorem branch_listed {offset : Nat} {distance : UInt8}
    (h : (offset, .bne distance) ∈ offsets 0 b.final) :
    ∃ target ∈ offsets 0 b.final, target.1 = (offset + 2 + distance.toNat) % 256 := by
  obtain ⟨front, back, hbody, rfl⟩ := mem_body h (by simp)
  obtain ⟨front', i, back', hcode, htarget, _⟩ :=
    Machine.position_of_entry (Machine.branch_entry b.secure.closed hbody)
  have hmem : (size front', i) ∈ offsets 0 b.final :=
    mem_offsets.mpr ⟨_, _, hcode, (Nat.zero_add _).symm⟩
  refine ⟨_, hmem, ?_⟩
  have htarget := congrArg UInt8.toNat htarget
  rw [UInt8.toNat_add, UInt8.toNat_ofNat', UInt8.toNat_ofNat', Nat.mod_add_mod,
    Nat.mod_eq_of_lt (listed_lt hmem)] at htarget
  exact htarget.symm

/-- The image of a program that was built has the structure of its code. -/
theorem structured (b : Built) : b.exe.Structured (offsets 0 b.final) where
  listed := b.listed_final
  tiles := by
    have htiles := Listing.tiles_offsets 0 b.final
    rwa [b.size_final, Nat.zero_add] at htiles
  halts := by
    have hlen := b.size_final
    rw [final, size_append] at hlen
    change size _ + 1 = _ at hlen
    refine ⟨offsets 0 (b.layout.resolveAll b.body), ?_, fun entry hentry hbrk ↦ ?_⟩
    · rw [final, offsets_append, ← hlen, Nat.add_sub_cancel, Nat.zero_add]
      rfl
    · obtain ⟨front, back, hbody, _⟩ := mem_offsets.mp hentry
      exact b.secure.closed.runsOn (by simp [hbody, hbrk])
  addresses entry hentry address haddress := by
    have hne : entry.2 ≠ .brk := by
      intro he
      rw [he] at haddress
      cases haddress
    obtain ⟨front, back, hbody, _⟩ := mem_body hentry hne
    exact b.secure.addresses entry.2 (by simp [hbody]) address haddress
  branches entry hentry distance hbne := by
    obtain ⟨offset, i⟩ := entry
    obtain rfl : i = .bne distance := hbne
    exact branch_listed hentry
  regions := by
    have hend := b.linked.heap_end
    exact ⟨b.linked.room, by omega⟩

end Built

/-- Every image that is generated is structured, whatever the tree and the bindings are. -/
theorem generate_structured (a : Analysis) (exe : Executable)
    (h : (generate a).result = .ok exe) : ∃ listing, exe.Structured listing := by
  obtain ⟨_, _, b, _, _, rfl, _⟩ := generate_built h
  exact ⟨_, b.structured⟩

/-- A source with a condition in a loop in a loop, and with sums and comparisons in comparisons. -/
def branching : String :=
  "\x7bint a boolean b while (a != 3) \x7ba = 1 + 2 + a while (b == (a == 1 + a)) " ++
    "\x7bif (b != (\"on\" == \"off\")) \x7bprint(b)\x7d\x7d\x7d print(4 + a)\x7d$"

/-- The program with branches compiles. -/
theorem compile_branching : ∃ artifact, (compile branching).result = .ok artifact := by
  have hok : (compile branching).result.isOk := by decide +kernel
  cases h : (compile branching).result with
  | error e =>
    rw [h] at hok
    cases hok
  | ok artifact => exact ⟨artifact, rfl⟩

/-- The image of a source with many branches is structured. -/
theorem generate_structured_branching : ∃ artifact,
    (compile branching).result = .ok artifact ∧
      ∃ listing, artifact.image.Structured listing := by
  obtain ⟨artifact, h⟩ := compile_branching
  obtain ⟨_, _, _, hgenerate⟩ := compile_eq_ok h
  exact ⟨artifact, h, generate_structured artifact.analysis artifact.image hgenerate⟩

end OnePage
