/-
  What the names of a draft are bound to.

  Only names that the draft has resolved are bound: to a declaration of the
  draft itself, or else to an entity of the first imported model that has one,
  directly imported or not.
-/
import MessageSchema.Model.Declarations

namespace MessageSchema.Model

/-- What names denote while the model of a draft is built. -/
structure Binder where
  /-- the file of the draft -/
  file : String
  declared : Table Declaration
  /-- the models that the draft imports, directly or not, each once -/
  imported : List Model

namespace Binder

/-- The models that some imports lead to, directly or not, each once. -/
def importedModels (lib : Library) (imports : Table String) : List Model :=
  let files := imports.values.flatMap lib.reachableFiles
  files.eraseDups.filterMap lib.find?

/-- The declaration of an imported file that has a name. -/
def importedEntity? (b : Binder) (name : String) : Option Entity :=
  b.imported.findSome? fun m => m.own? name

/-- What a resolved name refers to. -/
def bind? (b : Binder) (n : Draft.TypeName) : Option TypeRef :=
  if n.resolved then
    match b.declared.find? n.text with
    | some d => some ⟨d.kind, n.text⟩
    | none => (b.importedEntity? n.text).map fun e => ⟨e.kind, n.text⟩
  else none

/-- The message of the draft that has a name. -/
def message? (b : Binder) (name : String) : Option Draft.Message :=
  (b.declared.find? name).bind Declaration.message?

/-- The enumeration of the draft that has a name. -/
def enumeration? (b : Binder) (name : String) : Option Draft.Enumeration :=
  (b.declared.find? name).bind Declaration.enumeration?

/-- The values of the imported enumeration with a qualified name. -/
def importedValues (b : Binder) (name : String) : List EnumValue :=
  (((b.importedEntity? name).bind Entity.enumeration?).map (·.values)).getD []

end Binder

end MessageSchema.Model
