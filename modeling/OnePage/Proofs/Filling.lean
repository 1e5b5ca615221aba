import OnePage.Proofs.Storage

/-!
# Filling an image

An image serves requests one after the other: cells of code from the bottom, texts from the top,
and it refuses those for which there is no room. Whatever was asked for, in whatever order, the log
of the answers says what is on the image: the code is what was written, every text stands where it
was put, no two of them overlap, and all between code and texts is zero. A stored image that serves
the same requests gives the same answers and stays the image that is stored.
-/

namespace OnePage.Image

/-- Something asked of an image. -/
inductive Request where
  /-- A cell is to be added to the code. -/
  | write (cell : Cell)
  /-- A text is to be put on the image. -/
  | allocate (text : String)
  deriving DecidableEq

/-- What becomes of a request. -/
inductive Answer where
  | written
  /-- The text starts at the address. -/
  | placed (address : UInt8)
  /-- There is no room. -/
  | refused
  deriving DecidableEq

/-- The answer to a request, and the image after it. -/
def serve (image : Image) : Request → Answer × Image
  | .write cell =>
    match image.write? cell with
    | some next => (.written, next)
    | none => (.refused, image)
  | .allocate text =>
    match image.allocate? text with
    | some (address, next) => (.placed address, next)
    | none => (.refused, image)

/-- Requests served in order: each with its answer, and the image after the last. -/
def serveAll (image : Image) : List Request → List (Request × Answer) × Image
  | [] => ([], image)
  | request :: requests =>
    let (answer, next) := image.serve request
    let (log, last) := next.serveAll requests
    ((request, answer) :: log, last)

/-- The image that is blank at first, after some requests. -/
def after (requests : List Request) : Image := (blank.serveAll requests).2

/-- Some requests to an image that is blank at first, each with its answer. -/
def logOf (requests : List Request) : List (Request × Answer) := (blank.serveAll requests).1

/-- The answer that the outcome of an operation stands for, and what is stored after it. -/
def outcome {α : Type} (answer : α → Answer) :
    EStateM.Result CodeError StoredImage α → Answer × StoredImage
  | .ok value s => (answer value, s)
  | .error _ s => (.refused, s)

/-- The answer of a stored image to a request, and what is stored after it. -/
def serveStored (s : StoredImage) : Request → Answer × StoredImage
  | .write cell => outcome (fun _ ↦ .written) ((Storing.write cell).run s)
  | .allocate text => outcome .placed ((Storing.allocate text).run s)

/-- Requests served in order by a stored image: each with its answer, and what is stored then. -/
def serveAllStored (s : StoredImage) : List Request → List (Request × Answer) × StoredImage
  | [] => ([], s)
  | request :: requests =>
    let (answer, next) := serveStored s request
    let (log, last) := serveAllStored next requests
    ((request, answer) :: log, last)

/-- What is stored after some requests, if it is a blank image at first. -/
def storedAfter (requests : List Request) : StoredImage :=
  (serveAllStored .blank requests).2

/-- The cell that a request wrote, if it did. -/
def writtenCell? : Request × Answer → Option Cell
  | (.write cell, .written) => some cell
  | _ => none

/-- The text that a request put on the image, if it did, with its address. -/
def placement? : Request × Answer → Option (String × UInt8)
  | (.allocate text, .placed address) => some (text, address)
  | _ => none

/-- The cells written, in order. -/
def cellsWritten (log : List (Request × Answer)) : List Cell := log.filterMap writtenCell?

/-- The texts put on the image with their addresses, in order. -/
def placements (log : List (Request × Answer)) : List (String × UInt8) := log.filterMap placement?

/-- What a log says of the image after it. -/
structure Accounts (image : Image) (log : List (Request × Answer)) : Prop where
  ordered : image.position ≤ image.heapStart
  low : 1 ≤ image.heapStart
  top : image.heapStart ≤ 256
  /-- The code is the cells written, in order. -/
  code : image.cells.toList.take image.position = cellsWritten log
  free : ∀ k, image.position ≤ k → k < image.heapStart → image.cells[k]? = some (.const 0)
  /-- Every text placed, with the zero after it, stands at its address. -/
  texts : ∀ text address, (text, address) ∈ placements log →
    image.heapStart ≤ address.toNat ∧ textCells text <+: image.cells.toList.drop address.toNat
  /-- Of two texts placed, the later one ends below the other. -/
  apart : (placements log).Pairwise fun earlier later ↦
    later.2.toNat + (textCells later.1).length ≤ earlier.2.toNat

/-! ### One request -/

/-- What serving a request can do. -/
inductive Served (image : Image) : Request → Answer → Image → Prop where
  | written {cell : Cell} {next : Image} : image.write? cell = some next →
      Served image (.write cell) .written next
  | placed {text : String} {address : UInt8} {next : Image} :
      image.allocate? text = some (address, next) →
      Served image (.allocate text) (.placed address) next
  | refused {request : Request} : Served image request .refused image

private theorem served (image : Image) (request : Request) :
    Served image request (image.serve request).1 (image.serve request).2 := by
  cases request with
  | write cell =>
    rw [serve]
    cases h : image.write? cell with
    | none => exact .refused
    | some next => exact .written h
  | allocate text =>
    rw [serve]
    cases h : image.allocate? text with
    | none => exact .refused
    | some placed => exact .placed h

/-- A cell is refused if it does not fit below the texts. -/
theorem write?_eq_none {image : Image} {cell : Cell} :
    image.write? cell = none ↔ image.heapStart ≤ image.position := by
  simp [write?]

/-- A text is refused if it does not fit above the code, or would start at address zero. -/
theorem allocate?_eq_none {image : Image} {text : String} :
    image.allocate? text = none ↔
      image.heapStart - image.position < text.utf8ByteSize + 1 ∨
        image.heapStart ≤ text.utf8ByteSize + 1 := by
  simp only [allocate?, length_textCells, ite_eq_right_iff, reduceCtorEq, imp_false]
  omega

/-- A request that is refused leaves the image as it is. -/
theorem serve_of_refused {image : Image} {request : Request}
    (h : (image.serve request).1 = .refused) : (image.serve request).2 = image := by
  have hserved := served image request
  generalize (image.serve request).2 = next at hserved ⊢
  rw [h] at hserved
  cases hserved with
  | refused => rfl

private theorem sizes_of_write {image next : Image} {cell : Cell}
    (h : image.write? cell = some next) :
    next.position = image.position + 1 ∧ next.heapStart = image.heapStart := by
  simp only [write?, Option.ite_none_right_eq_some, Option.some.injEq] at h
  obtain ⟨_, rfl⟩ := h
  simp

private theorem sizes_of_allocate {image next : Image} {text : String} {address : UInt8}
    (h : image.allocate? text = some (address, next)) :
    next.position = image.position ∧ 0 < next.heapStart ∧
      next.heapStart + (textCells text).length = image.heapStart := by
  simp only [allocate?, Option.ite_none_right_eq_some, Option.some.injEq, Prod.mk.injEq] at h
  obtain ⟨_, _, rfl⟩ := h
  dsimp only
  omega

/-- A request takes room from what is free, at either end of it. -/
theorem Served.shrinks {image next : Image} {request : Request} {answer : Answer}
    (h : Served image request answer next) :
    image.position ≤ next.position ∧ next.heapStart ≤ image.heapStart := by
  cases h with
  | refused => simp
  | written hw =>
    have := sizes_of_write hw
    omega
  | placed ha =>
    have := sizes_of_allocate ha
    omega

/-! ### Requests to a stored image -/

/-- A request to a stored image is answered as by the image, and stored is the image after it. -/
theorem StoredAs.serve {image : Image} {s : StoredImage} (h : image.StoredAs s)
    (request : Request) :
    (serveStored s request).1 = (image.serve request).1 ∧
      (image.serve request).2.StoredAs (serveStored s request).2 := by
  cases request with
  | write cell =>
    rw [serveStored, Image.serve]
    rcases h.write cell with ⟨hnone, hrun⟩ | ⟨next, s', hsome, hrun, hstored⟩
    · rw [hnone, hrun]
      exact ⟨rfl, h⟩
    · rw [hsome, hrun]
      exact ⟨rfl, hstored⟩
  | allocate text =>
    rw [serveStored, Image.serve]
    rcases h.allocate text with ⟨hnone, hrun⟩ | ⟨address, next, s', hsome, hrun, hstored⟩
    · rw [hnone, hrun]
      exact ⟨rfl, h⟩
    · rw [hsome, hrun]
      exact ⟨rfl, hstored⟩

/-- Requests to a stored image are answered as by the image, and stored is the image after them. -/
theorem StoredAs.serveAll {image : Image} {s : StoredImage} (h : image.StoredAs s)
    (requests : List Request) :
    (serveAllStored s requests).1 = (image.serveAll requests).1 ∧
      (image.serveAll requests).2.StoredAs (serveAllStored s requests).2 := by
  induction requests generalizing image s with
  | nil => exact ⟨rfl, h⟩
  | cons request requests ih =>
    obtain ⟨hanswer, hnext⟩ := h.serve request
    obtain ⟨hlog, hlast⟩ := ih hnext
    refine ⟨?_, hlast⟩
    change (request, (serveStored s request).1) ::
        (serveAllStored (serveStored s request).2 requests).1 =
      (request, (image.serve request).1) :: ((image.serve request).2.serveAll requests).1
    rw [hanswer, hlog]

/-- A stored image that refuses a request is as it was, cells and indices alike. -/
theorem serveStored_of_refused {s : StoredImage} {request : Request}
    (h : (serveStored s request).1 = .refused) : (serveStored s request).2 = s := by
  cases request with
  | write cell =>
    rw [serveStored, Storing.run_write] at h ⊢
    split at h
    · simp [outcome] at h
    · next hfull => rw [if_neg hfull, outcome]
  | allocate text =>
    rw [serveStored, Storing.run_allocate] at h ⊢
    split at h
    · simp [outcome] at h
    · next hfull => rw [if_neg hfull, outcome]

/-! ### What the log accounts for -/

section

variable (log : List (Request × Answer)) (text : String) (address : UInt8) (cell : Cell)
  (request : Request)

@[simp] private theorem cellsWritten_written :
    cellsWritten (log ++ [(.write cell, .written)]) = cellsWritten log ++ [cell] :=
  List.filterMap_append

@[simp] private theorem cellsWritten_placed :
    cellsWritten (log ++ [(.allocate text, .placed address)]) = cellsWritten log := by
  simp [cellsWritten, List.filterMap_append, writtenCell?]

@[simp] private theorem cellsWritten_refused :
    cellsWritten (log ++ [(request, .refused)]) = cellsWritten log := by
  cases request <;> simp [cellsWritten, List.filterMap_append, writtenCell?]

@[simp] private theorem placements_written :
    placements (log ++ [(.write cell, .written)]) = placements log := by
  simp [placements, List.filterMap_append, placement?]

@[simp] private theorem placements_placed :
    placements (log ++ [(.allocate text, .placed address)]) = placements log ++ [(text, address)] :=
  List.filterMap_append

@[simp] private theorem placements_refused :
    placements (log ++ [(request, .refused)]) = placements log := by
  cases request <;> simp [placements, List.filterMap_append, placement?]

end

/-- The cells from an address among the texts on. -/
theorem Regions.drop {image : Image} {code heap : List Cell} (h : image.Regions code heap)
    {address : Nat} (ha : image.heapStart ≤ address) :
    image.cells.toList.drop address = heap.drop (address - image.heapStart) := by
  have hposition := h.position
  have hordered := h.ordered
  rw [h.cells, ← List.append_assoc, List.drop_append, List.drop_eq_nil_of_le (by simp; omega)]
  simp only [List.length_append, List.length_replicate, List.nil_append]
  congr 1
  omega

/-- The log tells the regions of the image: the code is what was written, and each text placed is
found among the texts. -/
structure Traced (image : Image) (log : List (Request × Answer)) (heap : List Cell) : Prop where
  regions : image.Regions (cellsWritten log) heap
  low : 1 ≤ image.heapStart
  texts : ∀ text address, (text, address) ∈ placements log →
    image.heapStart ≤ address.toNat ∧ textCells text <+: heap.drop (address.toNat - image.heapStart)
  apart : (placements log).Pairwise fun earlier later ↦
    later.2.toNat + (textCells later.1).length ≤ earlier.2.toNat

private theorem traced_blank : Traced blank [] [] where
  regions := regions_blank
  low := by simp [blank]
  texts := by simp [placements]
  apart := .nil

variable {image next : Image} {log : List (Request × Answer)} {heap : List Cell}

private theorem Traced.refuse (h : Traced image log heap) (request : Request) :
    Traced image (log ++ [(request, .refused)]) heap where
  regions := by simpa using h.regions
  low := h.low
  texts := by simpa using h.texts
  apart := by simpa using h.apart

private theorem Traced.write {cell : Cell} (h : Traced image log heap)
    (hw : image.write? cell = some next) :
    Traced next (log ++ [(.write cell, .written)]) heap := by
  obtain ⟨_, hstart⟩ := sizes_of_write hw
  constructor
  · rw [cellsWritten_written]
    exact h.regions.write hw
  · rw [hstart]
    exact h.low
  · rw [placements_written, hstart]
    exact h.texts
  · rw [placements_written]
    exact h.apart

private theorem Traced.allocate {text : String} {address : UInt8} (h : Traced image log heap)
    (ha : image.allocate? text = some (address, next)) :
    Traced next (log ++ [(.allocate text, .placed address)]) (textCells text ++ heap) := by
  obtain ⟨_, hlow, hsize⟩ := sizes_of_allocate ha
  obtain ⟨hregions, haddress⟩ := h.regions.allocate ha
  constructor
  · rw [cellsWritten_placed]
    exact hregions
  · exact hlow
  · intro other place hmem
    rw [placements_placed, List.mem_append, List.mem_singleton] at hmem
    rcases hmem with hmem | hnew
    · -- An earlier text is found as far behind the new one as it was above the texts.
      obtain ⟨habove, hfound⟩ := h.texts other place hmem
      have hdrop : place.toNat - next.heapStart =
          (textCells text).length + (place.toNat - image.heapStart) := by omega
      refine ⟨by omega, ?_⟩
      rw [hdrop, List.drop_length_add_append]
      exact hfound
    · obtain ⟨rfl, rfl⟩ := Prod.mk.inj hnew
      simp [haddress]
  · rw [placements_placed, List.pairwise_append]
    refine ⟨h.apart, List.pairwise_singleton _ _, ?_⟩
    rintro ⟨earlier, place⟩ hearlier later hlater
    obtain rfl := List.mem_singleton.mp hlater
    obtain ⟨habove, _⟩ := h.texts earlier place hearlier
    dsimp only
    omega

/-- Serving a request keeps the log true. -/
theorem Traced.serve {request : Request} {answer : Answer} (h : Traced image log heap)
    (hs : Served image request answer next) :
    ∃ heap, Traced next (log ++ [(request, answer)]) heap := by
  cases hs with
  | refused => exact ⟨heap, h.refuse request⟩
  | written hw => exact ⟨heap, h.write hw⟩
  | placed ha => exact ⟨_, h.allocate ha⟩

/-- Serving requests keeps the log true. -/
theorem Traced.serveAll (requests : List Request) (h : Traced image log heap) :
    ∃ heap, Traced (image.serveAll requests).2 (log ++ (image.serveAll requests).1) heap := by
  induction requests generalizing image log heap with
  | nil =>
    rw [Image.serveAll, List.append_nil]
    exact ⟨heap, h⟩
  | cons request requests ih =>
    obtain ⟨mid, hmid⟩ := h.serve (served image request)
    obtain ⟨last, hlast⟩ := ih hmid
    rw [List.append_assoc, List.singleton_append] at hlast
    exact ⟨last, hlast⟩

/-- A log that tells the regions of an image accounts for it. -/
theorem Traced.accounts (h : Traced image log heap) : image.Accounts log where
  ordered := h.regions.ordered
  low := h.low
  top := by
    have := h.regions.top
    omega
  code := by
    rw [h.regions.cells, h.regions.position, List.take_left]
  free := by
    intro k hlow hhigh
    have hposition := h.regions.position
    rw [← Vector.getElem?_toList, h.regions.cells, List.getElem?_append_right (by omega),
      List.getElem?_append_left (by simp; omega), List.getElem?_replicate_of_lt (by omega)]
  texts := by
    intro text address hmem
    obtain ⟨habove, hfound⟩ := h.texts text address hmem
    rw [h.regions.drop habove]
    exact ⟨habove, hfound⟩
  apart := h.apart

private theorem serveAll_append (image : Image) (earlier later : List Request) :
    (image.serveAll (earlier ++ later)).2 = ((image.serveAll earlier).2.serveAll later).2 := by
  induction earlier generalizing image with
  | nil => rfl
  | cons request earlier ih => exact ih (image.serve request).2

private theorem serveAll_shrinks (image : Image) (requests : List Request) :
    image.position ≤ (image.serveAll requests).2.position ∧
      (image.serveAll requests).2.heapStart ≤ image.heapStart := by
  induction requests generalizing image with
  | nil => simp [serveAll]
  | cons request requests ih =>
    have hfirst := (served image request).shrinks
    have hrest := ih (image.serve request).2
    exact ⟨Nat.le_trans hfirst.1 hrest.1, Nat.le_trans hrest.2 hfirst.2⟩

/-- At every point of a run of requests to a blank image, the log accounts for what is on it, and
what is free only shrinks from there on. A cell is refused exactly if nothing is free, a text
exactly if its bytes and a zero do not fit into what is free or would reach down to address zero,
and a request that is refused changes nothing. All of this holds of the image as it is stored, cell
by cell and with its two indices: it gives the same answers, and an operation on it that fails has
left all of it unchanged. -/
theorem requests_accounted (earlier later : List Request) :
    (after earlier).Accounts (logOf earlier) ∧
      (after earlier).position ≤ (after (earlier ++ later)).position ∧
      (after (earlier ++ later)).heapStart ≤ (after earlier).heapStart ∧
      (∀ request, ((after earlier).serve request).1 = .refused →
        ((after earlier).serve request).2 = after earlier) ∧
      (∀ cell, (after earlier).write? cell = none ↔
        (after earlier).position = (after earlier).heapStart) ∧
      (∀ text, (after earlier).allocate? text = none ↔
        (after earlier).heapStart - (after earlier).position < text.utf8ByteSize + 1 ∨
          text.utf8ByteSize + 1 = (after earlier).heapStart) ∧
      (serveAllStored .blank earlier).1 = logOf earlier ∧
      (after earlier).StoredAs (storedAfter earlier) ∧
      (∀ request, (serveStored (storedAfter earlier) request).1 = .refused →
        (serveStored (storedAfter earlier) request).2 = storedAfter earlier) ∧
      (∀ cell, (Storing.write cell).run (storedAfter earlier) =
          .error .outOfMemory (storedAfter earlier) ↔
        (after earlier).position = (after earlier).heapStart) ∧
      ∀ text, (Storing.allocate text).run (storedAfter earlier) =
          .error .outOfMemory (storedAfter earlier) ↔
        (after earlier).heapStart - (after earlier).position < text.utf8ByteSize + 1 ∨
          text.utf8ByteSize + 1 = (after earlier).heapStart := by
  obtain ⟨heap, htraced⟩ := traced_blank.serveAll earlier
  have haccounts : (after earlier).Accounts (logOf earlier) := htraced.accounts
  have hordered := haccounts.ordered
  have hshrinks := serveAll_shrinks (after earlier) later
  rw [after, ← serveAll_append] at hshrinks
  obtain ⟨hlog, hstored⟩ := storedAs_blank.serveAll earlier
  change (after earlier).StoredAs (storedAfter earlier) at hstored
  have hwrite (cell : Cell) : (after earlier).write? cell = none ↔
      (after earlier).position = (after earlier).heapStart := by
    rw [write?_eq_none]
    omega
  have hallocate (text : String) : (after earlier).allocate? text = none ↔
      (after earlier).heapStart - (after earlier).position < text.utf8ByteSize + 1 ∨
        text.utf8ByteSize + 1 = (after earlier).heapStart := by
    rw [allocate?_eq_none]
    omega
  exact ⟨haccounts, hshrinks.1, hshrinks.2, fun _ ↦ serve_of_refused, hwrite, hallocate, hlog,
    hstored, fun _ ↦ serveStored_of_refused,
    fun cell ↦ (hstored.write_fails_iff cell).trans (hwrite cell),
    fun text ↦ (hstored.allocate_fails_iff text).trans (hallocate text)⟩

end OnePage.Image
