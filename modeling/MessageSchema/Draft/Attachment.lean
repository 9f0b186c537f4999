/-
  Attaching imported files.

  `Draft.attach` links every import of a draft to the draft of the imported
  file, under the key of the import; imports whose file is unknown are passed
  over.  A key may come twice only for imports without local names; on any
  other repetition the links made so far stay.
-/
import MessageSchema.Draft
import MessageSchema.Fault

namespace MessageSchema.Draft

/-- Links imports one by one.  `seen` holds the imports met so far by their keys. -/
def attachAll (file : String) (find : Import → Option DraftId) :
    List Import → Table Import → Table DraftId → Table DraftId × Option Fault
  | [], _, attached => (attached, none)
  | i :: is, seen, attached =>
    let attached' := match find i with
      | some id => attached.insert i.key id
      | none => attached
    match seen.find? i.key with
    | none => attachAll file find is (seen.insert i.key i) attached'
    | some earlier =>
      if earlier.localName.isSome || i.localName.isSome then
        -- the link of this import is not kept
        (attached, some { cause := .aliasTaken i.key earlier.line, file, line := i.line })
      else attachAll file find is (seen.insert i.key i) attached'

/-- Links the imports of a draft to the drafts that `find` gives for them. -/
def attach (find : Draft.Import → Option DraftId) (d : Draft) : Draft × Option Fault :=
  let (attached, fault) := attachAll d.file find d.imports .empty d.attached
  ({ d with attached }, fault)

end MessageSchema.Draft
