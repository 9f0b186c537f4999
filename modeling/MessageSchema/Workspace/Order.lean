/-
  The order of files by their imports.

  `Workspace.order` lists the registered drafts so that every draft comes after
  those that it imports; imports that lead out of the registry do not count.
  Drafts are visited depth first, in the order of the registry.  If files import
  each other there is no order, and the first cycle met is the fault.
-/
import MessageSchema.Workspace

namespace MessageSchema.Workspace

/-- The paths visited to the end, and their drafts in order. -/
structure Sorted where
  done : List String
  ids : List DraftId

/-- Continues over the imports of a draft; `visit` visits what an import leads to
    from the paths `stack`, which end with the draft's own. -/
def sortImports (w : Workspace) (visit : String → DraftId → Sorted → Except Fault Sorted)
    (stack : List String) (d : Draft) : List Draft.Import → Sorted → Except Fault Sorted
  | [], s => .ok s
  | i :: is, s =>
    let path := w.target d i
    match w.registry.find? path with
    | none => sortImports w visit stack d is s
    | some id =>
      if stack.contains path then
        .error { cause := .importCycle (stack.dropWhile (· ≠ path) ++ [path]), file := d.file,
                 line := i.line }
      else do
        let s ← visit path id s
        sortImports w visit stack d is s

/-- Visits a path after all that it imports, down to a depth. -/
def sortFrom (w : Workspace) : Nat → List String → String → DraftId → Sorted → Except Fault Sorted
  | 0, _, _, _, s => .ok s
  | depth + 1, stack, path, id, s =>
    if s.done.contains path then .ok s
    else
      match w.draft? id with
      | none => .ok s
      | some d => do
        let inner := stack ++ [path]
        let s ← sortImports w (sortFrom w depth inner) inner d d.imports s
        return ⟨s.done ++ [path], s.ids ++ [id]⟩

/-- Sorts some files with all that they import. -/
def sortAll (w : Workspace) : List (String × DraftId) → Sorted → Except Fault Sorted
  | [], s => .ok s
  | (path, id) :: rest, s => do
    let s ← sortFrom w (w.registry.size + 1) [] path id s
    sortAll w rest s

/-- The registered drafts, each after those that it imports. -/
def order (w : Workspace) : Except Fault (List DraftId) := do
  let s ← w.sortAll w.registry.entries ⟨[], []⟩
  return s.ids

/-- Runs all passes on all registered drafts, each after those that it imports. -/
def refineAll (w : Workspace) : Workspace × Except Fault (List DraftId) :=
  match w.order with
  | .error fault => (w, .error fault)
  | .ok ids =>
    match refineEach Pass.multi ids w with
    | (w', some fault) => (w', .error fault)
    | (w', none) => (w', .ok ids)

end MessageSchema.Workspace
