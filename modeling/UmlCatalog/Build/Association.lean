import UmlCatalog.Build.Compile

/-!
# Resolving associations

Every association becomes the property at the attribute that is its end: it names a property
that has no name, adds its comments and is recorded there. An association whose end is an
attribute of no class is reported.
-/

namespace UmlCatalog

/-- The property that an association makes of the linked one. -/
def Property.resolved (p : Property) (link : AssociationLink) (a : Association) : Property :=
  { p with
    name := link.name.or a.name
    comments := link.comments ++ a.comments
    aggregation := link.aggregation.or p.aggregation
    association := some a.id }

/-- Change the property at a position. -/
def Class.modifyProperty (c : Class) (position : Nat) (f : Property → Property) : Class :=
  { c with properties := c.properties.modify position f }

namespace Draft

/-- The class that owns the end of an association, with the end. -/
def ownerOf? (d : Draft) (a : Association) : Option (ElementId × ElementId × Class) :=
  a.source.bind fun source =>
    (d.owners.get? source).bind fun classId =>
      (d.model.classes.get? classId).map fun c => (source, classId, c)

/-- Resolve one association. -/
def resolve (d : Draft) (a : Association) : Draft :=
  match d.ownerOf? a with
  | none => d.report [.unresolvedAssociationEnd a.id a.source]
  | some (source, classId, c) =>
      match c.associations.get? source with
      | none => d
      | some link =>
          { d with model := { d.model with
            classes := d.model.classes.modify classId fun c =>
              c.modifyProperty link.property fun p => p.resolved link a } }

/-- Resolve all associations of the model, in their order. -/
def applyAssociations (d : Draft) : Draft := d.model.associations.values.foldl resolve d

end Draft
end UmlCatalog
