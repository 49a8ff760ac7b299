import UmlCatalog.OrderedMap
import UmlCatalog.Yaml.Layout

/-!
# YAML nodes

The tree of a YAML text, and the machine that builds it from tokens. The machine keeps the
lists and records that are still open. Where a node is due and none is written, an empty
plain scalar stands for it.

## Implementation notes

Aliases stay in the tree. An anchor gets its number when its node starts, so that the node
may hold aliases of itself. An alias never stands for another alias, because only a node that
is written out can have an anchor.
-/

namespace UmlCatalog.Yaml

/-- The tree of a YAML text. Tags are kept of scalars only. -/
inductive Node where
  | scalar (s : Scalar) (tag : Option Tag)
  | alias (number : Nat)
  | list (items : List Node)
  | record (entries : List (Node × Node))
  deriving Inhabited

namespace Node

/-- The node where none is written. -/
def empty : Node := .scalar ⟨"", .plain⟩ none

/-- The nodes that a node consists of. -/
def children : Node → List Node
  | .scalar _ _ => []
  | .alias _ => []
  | .list items => items
  | .record entries => entries.flatMap fun e => [e.1, e.2]

/-- The number of events in which a node is written, without its children: a list or record has
a start and an end. -/
def ownEvents : Node → Nat
  | .scalar _ _ => 1
  | .alias _ => 1
  | .list _ => 2
  | .record _ => 2

theorem sizeOf_append_lt (ns ms : List Node) : sizeOf (ns ++ ms) < sizeOf ns + sizeOf ms := by
  induction ns with
  | nil => simp
  | cons n ns ih =>
      simp only [List.cons_append, List.cons.sizeOf_spec]
      omega

theorem sizeOf_flatMap_entries (entries : List (Node × Node)) :
    sizeOf (entries.flatMap fun e => [e.1, e.2]) = sizeOf entries := by
  induction entries with
  | nil => rfl
  | cons e entries ih =>
      obtain ⟨key, value⟩ := e
      simp only [List.flatMap_cons, List.cons_append, List.nil_append, List.cons.sizeOf_spec,
        Prod.mk.sizeOf_spec, ih]
      omega

/-- A node has more parts than its children together. -/
theorem sizeOf_children_le (n : Node) : sizeOf n.children ≤ sizeOf n := by
  cases n with
  | scalar s tag =>
      rw [children, List.nil.sizeOf_spec, scalar.sizeOf_spec]
      omega
  | «alias» number => simp [children]
  | list items => simp [children]
  | record entries =>
      rw [children, sizeOf_flatMap_entries, record.sizeOf_spec]
      omega

/-- The number of events in which nodes are written, on top of those counted before. -/
def eventsOnto (count : Nat) : List Node → Nat
  | [] => count
  | n :: ns => eventsOnto (count + n.ownEvents) (n.children ++ ns)
termination_by ns => sizeOf ns
decreasing_by
  have := sizeOf_append_lt n.children ns
  have := sizeOf_children_le n
  simp only [List.cons.sizeOf_spec]
  omega

/-- The number of events in which a node is written with all that it holds. -/
def events (n : Node) : Nat := eventsOnto 0 [n]

end Node

/-- The anchors of a document. An anchor is numbered by how many names are in use, and a
number that is given twice means the node that started last. -/
structure Anchors where
  /-- The names in use with their current numbers. -/
  names : OrderedMap String Nat
  /-- The numbers given so far, latest first, each with its node once it is complete. -/
  given : List (Nat × Option Node)
  deriving Inhabited

namespace Anchors

/-- No anchors. -/
def none : Anchors := ⟨∅, []⟩

/-- Give a number to a name. The result is the place among the numbers given, counted from
the first one. -/
def add (a : Anchors) (name : String) : Anchors × Nat :=
  let number := a.names.entries.length
  (⟨a.names.insert name number, (number, .none) :: a.given⟩, a.given.length)

/-- Complete the node of the anchor at a place. -/
def complete (a : Anchors) (place : Nat) (node : Node) : Anchors :=
  { a with given := a.given.modify (a.given.length - 1 - place) fun g => (g.1, some node) }

/-- The node that a number means. -/
def node? (a : Anchors) (number : Nat) : Option Node :=
  (a.given.find? fun g => g.1 = number).bind Prod.snd

end Anchors

/-- What handles stand for unless a directive says otherwise. -/
def standardHandles : List (String × Tag) :=
  [("!", .mark), ("!!", .ofText "tag:yaml.org,2002:")]

/-- What is written in front of a node. -/
structure Properties where
  /-- The place of its anchor among the numbers given. -/
  anchor : Option Nat
  tag : Option Tag
  deriving Inhabited

namespace Properties

/-- Nothing in front of a node. -/
def none : Properties := ⟨.none, .none⟩

/-- Whether nothing is written in front of a node. -/
def isNone (p : Properties) : Bool := p.anchor.isNone && p.tag.isNone

end Properties

/-- What waits for a node to be complete. Items and entries stand latest first; each frame has
the place of the anchor of its own node. -/
inductive Frame where
  | blockList (anchor : Option Nat) (items : List Node)
  /-- A list of which the hyphens stand at the column of the record around it. -/
  | bareList (anchor : Option Nat) (items : List Node)
  | blockKey (anchor : Option Nat) (entries : List (Node × Node))
  | blockValue (anchor : Option Nat) (entries : List (Node × Node)) (key : Node)
  | flowList (anchor : Option Nat) (items : List Node)
  /-- A key between braces that a value may follow. -/
  | flowKey (anchor : Option Nat) (entries : List (Node × Node))
  /-- A key between braces without a value. -/
  | loneKey (anchor : Option Nat) (entries : List (Node × Node))
  | flowValue (anchor : Option Nat) (entries : List (Node × Node)) (key : Node)
  /-- The key of a record with one entry that stands between brackets without braces. -/
  | pairKey (anchor : Option Nat) (items : List Node)
  | pairValue (anchor : Option Nat) (items : List Node) (key : Node)

/-- What may come next. -/
inductive State where
  /-- A directive or a document, behind the directives read so far. -/
  | prologue (versioned : Bool) (handles : List (String × Tag))
  /-- The root of a document, behind its mark. -/
  | root
  /-- A node, behind the properties read so far. -/
  | node (properties : Properties) (frames : List Frame)
  /-- An item of a block list, or its end. -/
  | blockItem (anchor : Option Nat) (items : List Node) (frames : List Frame)
  /-- An item of a bare list; anything else is its end. -/
  | bareItem (anchor : Option Nat) (items : List Node) (frames : List Frame)
  /-- A key of a block record, or its end. -/
  | blockKey (anchor : Option Nat) (entries : List (Node × Node)) (frames : List Frame)
  /-- The colon behind a key of a block record, unless the value is left out. -/
  | blockColon (anchor : Option Nat) (entries : List (Node × Node)) (key : Node)
      (frames : List Frame)
  /-- An item between brackets, or their end. -/
  | flowItem (anchor : Option Nat) (items : List Node) (frames : List Frame)
  /-- The comma behind an item between brackets, or their end. -/
  | flowItemEnd (anchor : Option Nat) (items : List Node) (frames : List Frame)
  /-- A key between braces, or their end. -/
  | flowKey (anchor : Option Nat) (entries : List (Node × Node)) (frames : List Frame)
  /-- The colon behind a key between braces, unless the value is left out. -/
  | flowColon (anchor : Option Nat) (entries : List (Node × Node)) (key : Node)
      (frames : List Frame)
  /-- The comma behind an entry between braces, or their end. -/
  | flowEntryEnd (anchor : Option Nat) (entries : List (Node × Node)) (frames : List Frame)
  /-- The colon behind the key of a pair between brackets, unless the value is left out. -/
  | pairColon (anchor : Option Nat) (items : List Node) (key : Node) (frames : List Frame)
  /-- The end of a document. -/
  | epilogue (root : Node)
  /-- Nothing: the text is complete. -/
  | done (root : Node)

/-- The state after a complete node. -/
def State.afterNode (node : Node) : List Frame → State
  | [] => .epilogue node
  | .blockList a items :: frames => .blockItem a (node :: items) frames
  | .bareList a items :: frames => .bareItem a (node :: items) frames
  | .blockKey a entries :: frames => .blockColon a entries node frames
  | .blockValue a entries key :: frames => .blockKey a ((key, node) :: entries) frames
  | .flowList a items :: frames => .flowItemEnd a (node :: items) frames
  | .flowKey a entries :: frames => .flowColon a entries node frames
  | .loneKey a entries :: frames => .flowEntryEnd a ((node, .empty) :: entries) frames
  | .flowValue a entries key :: frames => .flowEntryEnd a ((key, node) :: entries) frames
  | .pairKey a items :: frames => .pairColon a items node frames
  | .pairValue a items key :: frames => .flowItemEnd a (.record [(key, node)] :: items) frames

/-- Whether a node may be a block: anywhere but inside brackets and braces. -/
def mayBeBlock : List Frame → Bool
  | [] => true
  | .blockList _ _ :: _ => true
  | .bareList _ _ :: _ => true
  | .blockKey _ _ :: _ => true
  | .blockValue _ _ _ :: _ => true
  | _ => false

/-- Whether a node may be a bare list: only in a block record. -/
def mayBeBareList : List Frame → Bool
  | .blockKey _ _ :: _ => true
  | .blockValue _ _ _ :: _ => true
  | _ => false

/-- Whether a token shows that a node is left out. -/
def isLeftOut (t : Token) : List Frame → Bool
  | .blockList _ _ :: _ => t = .item || t = .closeBlock
  | .bareList _ _ :: _ => t = .item || t = .key || t = .value || t = .closeBlock
  | .blockKey _ _ :: _ => t = .key || t = .value || t = .closeBlock
  | .blockValue _ _ _ :: _ => t = .key || t = .value || t = .closeBlock
  | .flowKey _ _ :: _ => t = .value || t = .comma || t = .closeFlowRecord
  | .flowValue _ _ _ :: _ => t = .comma || t = .closeFlowRecord
  | .pairValue _ _ _ :: _ => t = .comma || t = .closeFlowList
  | _ => false

/-- Whether a token takes the place of the key of a pair between brackets. -/
def replacesPairKey (t : Token) : List Frame → Bool
  | .pairKey _ _ :: _ => t = .value || t = .comma || t = .closeFlowList
  | _ => false

/-- What has been read of a text. -/
structure Reading where
  state : State
  anchors : Anchors
  /-- What handles stand for. -/
  handles : List (String × Tag)

namespace Reading

/-- Nothing read yet. -/
def start : Reading := ⟨.prologue false [], .none, []⟩

/-- Go on in another state. -/
def goTo (r : Reading) (s : State) : Reading := { r with state := s }

/-- A node comes next, with nothing in front of it yet. -/
def expect (r : Reading) (frames : List Frame) : Reading := r.goTo (.node .none frames)

/-- A node is complete. -/
def complete (r : Reading) (anchor : Option Nat) (node : Node) (frames : List Frame) : Reading :=
  { r with
    anchors := anchor.elim r.anchors fun place => r.anchors.complete place node
    state := .afterNode node frames }

/-- A node is left out. -/
def completeEmpty (r : Reading) (p : Properties) (frames : List Frame) : Reading :=
  r.complete p.anchor (.scalar ⟨"", .plain⟩ p.tag) frames

/-- The tag that a handle and a suffix spell. -/
def tag? (r : Reading) (handle : Option String) (suffix : Tag) : Option Tag :=
  match handle with
  | none => some suffix
  | some handle => (r.handles.lookup handle).map fun meaning => meaning ++ suffix

/-- Read a token that starts a node or stands in front of one. -/
def startNode (r : Reading) (p : Properties) (frames : List Frame) : Token → Option Reading
  | .alias name =>
      if p.isNone then
        (r.anchors.names.get? name).map fun n => r.complete none (.alias n) frames
      else none
  | .anchor name =>
      if p.anchor.isSome then none
      else
        let (anchors, place) := r.anchors.add name
        some { r with anchors := anchors, state := .node { p with anchor := some place } frames }
  | .tag handle suffix =>
      if p.tag.isSome then none
      else (r.tag? handle suffix).map fun tag => r.goTo (.node { p with tag := some tag } frames)
  | .scalar s => some (r.complete p.anchor (.scalar s p.tag) frames)
  | .openFlowList => some (r.goTo (.flowItem p.anchor [] frames))
  | .openFlowRecord => some (r.goTo (.flowKey p.anchor [] frames))
  | .openBlockList =>
      if mayBeBlock frames then some (r.goTo (.blockItem p.anchor [] frames)) else none
  | .openBlockRecord =>
      if mayBeBlock frames then some (r.goTo (.blockKey p.anchor [] frames)) else none
  | .item =>
      if mayBeBareList frames then some (r.expect (.bareList p.anchor [] :: frames)) else none
  | _ => none

/-- Read a token where a key of a block record may come. -/
def atBlockKey (r : Reading) (a : Option Nat) (entries : List (Node × Node))
    (frames : List Frame) : Token → Option Reading
  | .key => some (r.expect (.blockKey a entries :: frames))
  | .closeBlock => some (r.complete a (.record entries.reverse) frames)
  | _ => none

/-- Read a token where the colon of a block record may come. -/
def atBlockColon (r : Reading) (a : Option Nat) (entries : List (Node × Node)) (key : Node)
    (frames : List Frame) (t : Token) : Option Reading :=
  if t = .value then some (r.expect (.blockValue a entries key :: frames))
  else r.atBlockKey a ((key, .empty) :: entries) frames t

/-- Read a token where an item of a bare list may come. -/
def atBareItem (r : Reading) (a : Option Nat) (items : List Node) (frames : List Frame)
    (t : Token) : Option Reading :=
  if t = .item then some (r.expect (.bareList a items :: frames))
  else
    let r := r.complete a (.list items.reverse) frames
    match r.state with
    | .blockColon a entries key frames => r.atBlockColon a entries key frames t
    | .blockKey a entries frames => r.atBlockKey a entries frames t
    | _ => none

/-- Read a token where a comma between brackets may come. -/
def atFlowItemEnd (r : Reading) (a : Option Nat) (items : List Node) (frames : List Frame) :
    Token → Option Reading
  | .comma => some (r.goTo (.flowItem a items frames))
  | .closeFlowList => some (r.complete a (.list items.reverse) frames)
  | _ => none

/-- Read a token where a comma between braces may come. -/
def atFlowEntryEnd (r : Reading) (a : Option Nat) (entries : List (Node × Node))
    (frames : List Frame) : Token → Option Reading
  | .comma => some (r.goTo (.flowKey a entries frames))
  | .closeFlowRecord => some (r.complete a (.record entries.reverse) frames)
  | _ => none

/-- Read a token in front of a document. -/
def atPrologue (r : Reading) (versioned : Bool) (handles : List (String × Tag)) :
    Token → Option Reading
  | .version major minor =>
      if versioned ∨ major ≠ 1 ∨ (minor ≠ 1 ∧ minor ≠ 2) then none
      else some (r.goTo (.prologue true handles))
  | .tagHandle handle meaning =>
      if (handles.lookup handle).isSome then none
      else some (r.goTo (.prologue versioned ((handle, meaning) :: handles)))
  | .documentStart => some { r with state := .root, handles := handles ++ standardHandles }
  | t =>
      if versioned || !handles.isEmpty then none
      else if t = .streamEnd then some (r.goTo (.done .empty))
      else { r with handles := standardHandles }.startNode .none [] t

/-- Read a token behind a document. A second document is not read. -/
def atEpilogue (r : Reading) (root : Node) : Token → Option Reading
  | .documentEnd => some (r.goTo (.epilogue root))
  | .streamEnd => some (r.goTo (.done root))
  | _ => none

/-- Read a token between two nodes. -/
def betweenNodes (r : Reading) (t : Token) : Option Reading :=
  match r.state with
  | .blockItem a items frames =>
      if t = .item then some (r.expect (.blockList a items :: frames))
      else if t = .closeBlock then some (r.complete a (.list items.reverse) frames)
      else none
  | .bareItem a items frames => r.atBareItem a items frames t
  | .blockKey a entries frames => r.atBlockKey a entries frames t
  | .blockColon a entries key frames => r.atBlockColon a entries key frames t
  | .flowItem a items frames =>
      if t = .key then some (r.expect (.pairKey a items :: frames))
      else if t = .closeFlowList then some (r.complete a (.list items.reverse) frames)
      else r.startNode .none (.flowList a items :: frames) t
  | .flowItemEnd a items frames => r.atFlowItemEnd a items frames t
  | .flowKey a entries frames =>
      if t = .key then some (r.expect (.flowKey a entries :: frames))
      else if t = .closeFlowRecord then some (r.complete a (.record entries.reverse) frames)
      else r.startNode .none (.loneKey a entries :: frames) t
  | .flowColon a entries key frames =>
      if t = .value then some (r.expect (.flowValue a entries key :: frames))
      else r.atFlowEntryEnd a ((key, .empty) :: entries) frames t
  | .flowEntryEnd a entries frames => r.atFlowEntryEnd a entries frames t
  | .pairColon a items key frames =>
      if t = .value then some (r.expect (.pairValue a items key :: frames))
      else r.atFlowItemEnd a (.record [(key, .empty)] :: items) frames t
  | .epilogue root => r.atEpilogue root t
  | _ => none

/-- Read a token where a node is due. Without a node, the token is what comes behind it. -/
def atNode (r : Reading) (p : Properties) (frames : List Frame) (t : Token) : Option Reading :=
  match r.startNode p frames t with
  | some r => some r
  | none =>
      if !p.isNone || isLeftOut t frames then (r.completeEmpty p frames).betweenNodes t
      else if replacesPairKey t frames then some (r.completeEmpty p frames)
      else none

/-- Whether a token cannot belong to the root of a document behind its mark. -/
def endsDocument : Token → Bool
  | .version _ _ => true
  | .tagHandle _ _ => true
  | .documentStart => true
  | .documentEnd => true
  | .streamEnd => true
  | _ => false

/-- Read a token. -/
def step (r : Reading) (t : Token) : Option Reading :=
  match r.state with
  | .prologue versioned handles => r.atPrologue versioned handles t
  | .root =>
      if endsDocument t then (r.completeEmpty .none []).betweenNodes t
      else r.startNode .none [] t
  | .node p frames => r.atNode p frames t
  | _ => r.betweenNodes t

/-- Read tokens. -/
def run : Reading → List Token → Option Reading
  | r, [] => some r
  | r, t :: ts => (r.step t).bind fun r => run r ts

end Reading

/-- The tree of a text with its anchors. -/
structure Tree where
  root : Node
  anchors : Anchors
  deriving Inhabited

/-- Build the tree of a sequence of tokens. -/
def Tree.ofTokens? (tokens : List Token) : Option Tree :=
  match Reading.start.run tokens with
  | some ⟨.done root, anchors, _⟩ => some ⟨root, anchors⟩
  | _ => none

end UmlCatalog.Yaml
