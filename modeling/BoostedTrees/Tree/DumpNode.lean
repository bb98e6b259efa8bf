import BoostedTrees.Json.Decoder
import BoostedTrees.Json.Writer

/-!
# Nodes of a structured dump

A dumped node nests its children. A split names its feature and its children, a leaf
its value; gain and cover are present where statistics were asked for. As JSON, a
field that is absent is left out, and so is an empty list of children.
-/

namespace BoostedTrees

/-- What a dumped node says of itself. -/
structure DumpFields where
  id : UInt32
  depth : Option UInt32
  split : Option String
  splitCondition : Option Single
  yes : Option UInt32
  no : Option UInt32
  missing : Option UInt32
  gain : Option Double
  cover : Option Double
  leaf : Option Single

/-- A dumped node and the nodes below it. -/
inductive DumpNode where
  | node (fields : DumpFields) (children : List DumpNode)

namespace DumpNode

def fields : DumpNode → DumpFields
  | node fields _ => fields

def children : DumpNode → List DumpNode
  | node _ children => children

/-- The members of a node beside its children. -/
def scalarMembers (f : DumpFields) : List (String × List Char) :=
  let word (n : UInt32) := Json.Writer.nat n.toNat
  let member {α : Type} (name : String) (write : α → List Char) (value : Option α) :=
    (value.map fun v => (name, write v)).toList
  ("nodeid", word f.id) ::
    (member "depth" word f.depth ++ member "split" Json.Writer.string f.split ++
      member "split_condition" Json.Writer.single f.splitCondition ++ member "yes" word f.yes ++
      member "no" word f.no ++ member "missing" word f.missing ++
      member "gain" Json.Writer.double f.gain ++ member "cover" Json.Writer.double f.cover ++
      member "leaf" Json.Writer.single f.leaf)

mutual

/-- The text of a node with another text behind it. A deep node is written without
copying what is inside it once more at every level. -/
def toJsonBefore : DumpNode → List Char → List Char
  | node f [], after => Json.Writer.object (scalarMembers f) ++ after
  | node f (child :: more), after =>
    '\x7b' :: (Json.Writer.members (scalarMembers f) ++
      ',' :: (Json.Writer.string "children" ++
        ':' :: '[' :: toJsonBefore child (moreToJsonBefore more (']' :: '\x7d' :: after))))

/-- The texts of further children, each behind a comma, with another text behind them. -/
def moreToJsonBefore : List DumpNode → List Char → List Char
  | [], after => after
  | child :: more, after => ',' :: toJsonBefore child (moreToJsonBefore more after)

end

def toJson (n : DumpNode) : List Char := n.toJsonBefore []

/-- The names of the fields, in the order of the array form. -/
def fieldNames : List String :=
  ["nodeid", "depth", "split", "split_condition", "yes", "no", "missing", "gain", "cover", "leaf",
    "children"]

/-- What a record says of a node beside its children. -/
def fieldsOf? (r : Json.Record) : Option DumpFields := do
  return {
    id := ← r.required "nodeid" Json.Decoder.uint32
    depth := ← r.optional "depth" Json.Decoder.uint32
    split := ← r.optional "split" Json.Decoder.text
    splitCondition := ← r.optional "split_condition" Json.Decoder.single
    yes := ← r.optional "yes" Json.Decoder.uint32
    no := ← r.optional "no" Json.Decoder.uint32
    missing := ← r.optional "missing" Json.Decoder.uint32
    gain := ← r.optional "gain" Json.Decoder.double
    cover := ← r.optional "cover" Json.Decoder.double
    leaf := ← r.optional "leaf" Json.Decoder.single }

/-- Reads a node; its children are two containers deeper. -/
def ofJson : Json.Decoder DumpNode
  | 0, _ => none
  | depth + 1, j =>
    match Json.Record.ofJson? fieldNames (depth + 1) j with
    | none => none
    | some r =>
      match fieldsOf? r, r.field? "children" with
      | none, _ => none
      | some f, none => some (node f [])
      | some f, some (.array items) =>
        match depth with
        | 0 => none
        -- The node was one container, the list of its children is the other.
        | depth + 1 => (items.mapM (ofJson depth)).map (node f)
      | some _, some _ => none

/-- Reads a node from a whole text. -/
def ofText? (text : String) : Option DumpNode := Json.decode ofJson (Text.utf8 text)

end DumpNode

end BoostedTrees
