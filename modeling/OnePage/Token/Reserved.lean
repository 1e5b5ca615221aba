import OnePage.Token

/-!
# Reserved words

Source text has no separators between words: a run of letters is read as the reserved word that
begins there, or else as one letter. The word is found by following the text letter by letter and
keeping the words that still agree with it.

Specification: section 4.1, searching for words.
-/

namespace OnePage.Reserved

/-- The reserved words with their kinds. -/
def words : List (List Char × Kind) :=
  [("if".toList, .ifWord), ("while".toList, .whileWord), ("print".toList, .printWord),
   ("int".toList, .typeWord), ("string".toList, .typeWord), ("boolean".toList, .typeWord),
   ("true".toList, .boolVal), ("false".toList, .boolVal)]

/-- What is left of a word after its first letter, if that letter is `c`. -/
def after (c : Char) : List Char × Kind → Option (List Char × Kind)
  | ([], _) => none
  | (d :: rest, kind) => if d = c then some (rest, kind) else none

/-- The kind of a word of which nothing is left. -/
def finished? (candidates : List (List Char × Kind)) : Option Kind :=
  (candidates.find? (·.1.isEmpty)).map (·.2)

/-- Follow the text while some candidate agrees with it, up to the first that is complete. The
letters followed are returned with its kind. -/
def follow (candidates : List (List Char × Kind)) : List Char → Option (List Char × Kind)
  | [] => none
  | c :: rest =>
    let agreeing := candidates.filterMap (after c)
    match finished? agreeing with
    | some kind => some ([c], kind)
    | none =>
      if agreeing.isEmpty then none
      else (follow agreeing rest).map fun (letters, kind) ↦ (c :: letters, kind)

/-- The reserved word with which the text begins, with its kind. -/
def word? (text : List Char) : Option (List Char × Kind) := follow words text

end OnePage.Reserved
