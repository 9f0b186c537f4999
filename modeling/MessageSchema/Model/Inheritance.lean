/-
  Enumerations with their inherited values, and cycles of inheritance.

  * `Binder.enumerations` are the enumerations of a draft, each with the values
    of its ancestors.
-/
import MessageSchema.Model.Binding
import MessageSchema.Model.Values

namespace MessageSchema.Model

/-- The enumerations completed so far, and the faults met. -/
structure Enumerations where
  finished : Table Enumeration := .empty
  faults : List Fault := []

/-- Adds a fault. -/
def Enumerations.fault (es : Enumerations) (f : Fault) : Enumerations :=
  { es with faults := es.faults ++ [f] }

namespace Binder

/-- The faults of an enumeration whose values have been merged. -/
def mergeFaults (name : String) (parent : Option TypeRef) (m : Merged) : List Fault :=
  m.duplicates.map (fun (v, inherited) =>
    faultAt v.origin (if inherited then
      .valueInherited v.name name ((parent.map (·.name)).getD "its parent")
      else .valueTwice v.name name))
  ++ m.overflows.map fun v => faultAt v.origin (.valueTooWide v.name name)

/-- Finishes an enumeration, given its parent and the values of that. -/
def finish (name : String) (e : Draft.Enumeration) (parent : Option TypeRef)
    (inherited : List EnumValue) (es : Enumerations) : Enumerations × Enumeration :=
  let merged := mergeValues (e.kind ≠ .flags) inherited e.values
  let result : Enumeration :=
    { name := e.name, qualified := name, kind := e.kind
      width := storageWidth (e.kind = .extensible) (merged.values.map (·.number))
      parent, values := merged.values, origin := e.origin }
  ({ finished := es.finished.insert name result
     faults := es.faults ++ mergeFaults name parent merged }, result)

/-- The parent of an enumeration, or what is wrong with it. -/
def enumParent (b : Binder) (name : String) (e : Draft.Enumeration) :
    Except Fault (Option TypeRef) :=
  match e.parent with
  | none => .ok none
  | some p =>
    match b.bind? p with
    | none => .error (faultAt e.origin (.unresolved p.text s!"parent of enum {name}"))
    | some ref =>
      if ref.kind = .enumeration then .ok (some ref)
      else .error (faultAt e.origin (.parentNotEnum ref.name name))

/-- Finishes an enumeration after its ancestors, down to a depth.  `chain` are the
    enumerations that wait for it, which inherit from each other in order. -/
def enumFrom (b : Binder) : Nat → List String → String → Draft.Enumeration → Enumerations →
    Enumerations × Option Enumeration
  | 0, _, _, _, es => (es, none)
  | depth + 1, chain, name, e, es =>
    match es.finished.find? name with
    | some done => (es, some done)
    | none =>
      if chain.contains name then
        (es.fault (faultAt e.origin (.inheritanceCycle (chain.dropWhile (· ≠ name) ++ [name]))),
          none)
      else
        match b.enumParent name e with
        | .error fault =>
          -- finished all the same, so that its children find it
          let (es, result) := finish name e none [] (es.fault fault)
          (es, some result)
        | .ok none =>
          let (es, result) := finish name e none [] es
          (es, some result)
        | .ok (some ref) =>
          match b.enumeration? ref.name with
          | some p =>
            let (es, above) := b.enumFrom depth (chain ++ [name]) ref.name p es
            let (es, result) := finish name e (some ref) ((above.map (·.values)).getD []) es
            (es, some result)
          | none =>
            let (es, result) := finish name e (some ref) (b.importedValues ref.name) es
            (es, some result)

/-- Completes all enumerations of a draft. -/
def enumerations (b : Binder) : Enumerations :=
  b.declared.entries.foldl (fun es d =>
    match d.2.enumeration? with
    | some e => (b.enumFrom (b.declared.size + 1) [] d.1 e es).1
    | none => es) {}

/-! ## Cycles of messages -/

/-- The messages from one on, each the parent of the one before, up to the first
    that comes again; and that one, if there is one. -/
def messageChain (b : Binder) : Nat → List String → Option String → List String × Option String
  | 0, path, _ => (path, none)
  | _, path, none => (path, none)
  | depth + 1, path, some name =>
    if path.contains name then (path, some name)
    else
      b.messageChain depth (path ++ [name])
        (((b.message? name).bind (·.parent)).map (·.text))

/-- The cycle that a message leads into, its first member repeated at the end. -/
def messageCycle? (b : Binder) (name : String) : Option (String × List String) :=
  match b.messageChain (b.declared.size + 2) [] (some name) with
  | (path, some again) => some (again, path.dropWhile (· ≠ again) ++ [again])
  | (_, none) => none

/-- Reports the cycle that a message leads into, unless one of its members has been
    reported. -/
def addMessageCycle (b : Binder) (reported : List String) (faults : List Fault) (name : String) :
    List String × List Fault :=
  if reported.contains name then (reported, faults)
  else
    match b.messageCycle? name with
    | none => (reported, faults)
    | some (again, cycle) =>
      if cycle.any reported.contains then (reported, faults)
      else
        let fault := match b.declared.find? again with
          | some d => faultAt d.origin (.inheritanceCycle cycle)
          | none => { cause := .inheritanceCycle cycle, file := b.file, line := 0 }
        (reported ++ cycle, faults ++ [fault])

/-- The faults of messages that inherit from themselves. -/
def messageCycleFaults (b : Binder) : List Fault :=
  (b.declared.entries.foldl (fun (reported, faults) d =>
    match d.2.message? with
    | some _ => b.addMessageCycle reported faults d.1
    | none => (reported, faults)) (([], []) : List String × List Fault)).2

end Binder

end MessageSchema.Model
