import UmlCatalog.OrderedMap
import UmlCatalog.OrderedSet
import UmlCatalog.ElementId
import UmlCatalog.Hierarchy
import UmlCatalog.Model.Basic
import UmlCatalog.Model.Index
import UmlCatalog.Text.Utf8
import UmlCatalog.Wire.Reading
import UmlCatalog.Wire.Record
import UmlCatalog.Json.Number
import UmlCatalog.Json.Token
import UmlCatalog.Json.Document
import UmlCatalog.Json.Printer
import UmlCatalog.Json.Model
import UmlCatalog.Markup.Element
import UmlCatalog.Markup.Entity
import UmlCatalog.Markup.Event
import UmlCatalog.Markup.Construct
import UmlCatalog.Markup.Document
import UmlCatalog.BuildConfig
import UmlCatalog.Diagnostic
import UmlCatalog.Text.Blank
import UmlCatalog.Text.Uppercase
import UmlCatalog.Build.Association
import UmlCatalog.Build.Model
import UmlCatalog.ObjectGraph.Basic
import UmlCatalog.ObjectGraph.Arena
import UmlCatalog.ObjectGraph.OfModel
import UmlCatalog.View
import UmlCatalog.Format
import UmlCatalog.Proofs.Hierarchy.Closure
import UmlCatalog.Proofs.Hierarchy.History
import UmlCatalog.Proofs.ObjectGraph.DepthFirst
import UmlCatalog.Proofs.ObjectGraph.Visit
import UmlCatalog.Proofs.ObjectGraph.Reach
import UmlCatalog.Proofs.ObjectGraph.Machine
import UmlCatalog.Proofs.ObjectGraph.Simulation
import UmlCatalog.Proofs.ObjectGraph.Indexed
import UmlCatalog.Proofs.ObjectGraph.References
import UmlCatalog.Proofs.ObjectGraph.Finished
import UmlCatalog.Proofs.ObjectGraph.Entities
import UmlCatalog.Proofs.ObjectGraph.Reachability
import UmlCatalog.Proofs.Model.Outline
import UmlCatalog.Proofs.Build.Nesting
import UmlCatalog.Proofs.Build.Draft
import UmlCatalog.Proofs.Build.Insertion
import UmlCatalog.Proofs.Build.Sound
import UmlCatalog.Proofs.Build.Kinds
import UmlCatalog.Proofs.Build.Visited
import UmlCatalog.Proofs.Build.Records
import UmlCatalog.Proofs.Build.Filing
import UmlCatalog.Proofs.Build.Acceptance
import UmlCatalog.Proofs.View.Surroundings
import UmlCatalog.Proofs.View.Walk
import UmlCatalog.Proofs.View.Classes
import UmlCatalog.Proofs.View.Pipeline
import UmlCatalog.Proofs.View.Repeated
import UmlCatalog.Proofs.ObjectGraph.KnownDatatypes
import UmlCatalog.Proofs.Model.Index
import UmlCatalog.Proofs.Model.Referees
import UmlCatalog.Proofs.Model.Contents
import UmlCatalog.Proofs.ObjectGraph.Contents
import UmlCatalog.Proofs.ObjectGraph.Viewed
import UmlCatalog.Proofs.ObjectGraph.Referents
import UmlCatalog.Proofs.Hierarchy.Forest
import UmlCatalog.Proofs.Build.Placement
import UmlCatalog.Proofs.Build.Hierarchies
import UmlCatalog.Proofs.Markup.Rearranged
import UmlCatalog.Proofs.Model.Agreement
import UmlCatalog.Proofs.Build.Rearranged
import UmlCatalog.Proofs.Build.Resolution
import UmlCatalog.Proofs.Build.OrderIndependence
import UmlCatalog.Proofs.Canonical
import UmlCatalog.Proofs.Json.RoundTrip
import UmlCatalog.Proofs.Yaml.Character
import UmlCatalog.Proofs.Yaml.Plain
import UmlCatalog.Proofs.Yaml.Quoted
import UmlCatalog.Proofs.Yaml.Literal
import UmlCatalog.Proofs.Yaml.Layout
import UmlCatalog.Proofs.Yaml.Entry
import UmlCatalog.Proofs.Yaml.Words
import UmlCatalog.Proofs.Yaml.Printable
import UmlCatalog.Proofs.Yaml.Tree
import UmlCatalog.Proofs.Yaml.RoundTrip
import UmlCatalog.Proofs.Json.Mended
import UmlCatalog.Proofs.Text.Ascii
import UmlCatalog.Proofs.Markup.FirstTag
import UmlCatalog.Proofs.Validation
import UmlCatalog.Proofs.Build.Ends
import UmlCatalog.Proofs.Build.Findings
import UmlCatalog.Proofs.Build.Recorded
import UmlCatalog.Proofs.Build.Imports
import UmlCatalog.Proofs.ObjectGraph.Designators
import UmlCatalog.Proofs.ObjectGraph.ChildLists
import UmlCatalog.Proofs.ObjectGraph.Termination
import UmlCatalog.Proofs.View.Recursion
import UmlCatalog.Proofs.View.Copies
import UmlCatalog.Proofs.Hierarchy.Recording
import UmlCatalog.Proofs.Hierarchy.Ascent
import UmlCatalog.Proofs.View.Skeleton
import UmlCatalog.Proofs.View.Inheritance
import UmlCatalog.Proofs.View.BackReferences
import UmlCatalog.Proofs.Hierarchy.Arrival
import UmlCatalog.Proofs.Text.Encoding
import UmlCatalog.Proofs.Markup.Pieces
import UmlCatalog.Proofs.Markup.Tags
import UmlCatalog.Proofs.Markup.Content
import UmlCatalog.Proofs.Markup.Nesting
import UmlCatalog.Proofs.Text.Trimmed
import UmlCatalog.Proofs.Markup.Trimming
import UmlCatalog.Proofs.Build.Unheld
import UmlCatalog.Proofs.Build.Reports
import UmlCatalog.Proofs.Build.Names
import UmlCatalog.Proofs.Build.Uniformity
import UmlCatalog.Proofs.Model.Partition
import UmlCatalog.Proofs.Model.Multiplicity
import UmlCatalog.Proofs.Build.Links
import UmlCatalog.Proofs.Build.Skipped
