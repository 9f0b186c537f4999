/-
  Separators of qualified names.

  A dot and a double colon between the parts of a name mean the same;
  `Draft.useColons` keeps only the double colons.
-/
import MessageSchema.Draft.Walk

namespace MessageSchema.Draft

/-- The name with colons for its separators. -/
def TypeName.useColons (n : TypeName) : TypeName :=
  { n with text := QualifiedName.withColons n.text }

/-- Writes every type and parent name of a file with double colons. -/
def useColons (d : Draft) : Draft :=
  { d with
    top := d.top.mapNames TypeName.useColons
    arena := d.arena.map fun ns => { ns with scope := ns.scope.mapNames TypeName.useColons } }

end MessageSchema.Draft
