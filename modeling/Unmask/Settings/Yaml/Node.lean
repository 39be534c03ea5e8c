/-
# `Unmask.Settings.Yaml.Node` — trees of nodes

The tokens of a document spell one node: a scalar, a list or a mapping, before
which an anchor and a tag may stand, or an alias, which stands for the node
that its anchor was put on.  Where a node may be missing, it is null.

A plain scalar is a number, a flag or null if it looks like one, and a tag can
ask for such a reading or for a text.  What a tag asks for in vain, and what an
alias asks for inside the very node it names, is void; a void key is passed
over, and the node behind it is the key.
-/
import Unmask.Decimal
import Unmask.Settings.Yaml.Token

namespace Unmask.Yaml

/-- A node.  A fraction is kept as it is written. -/
inductive Node where
  | void
  | null
  | bool (b : Bool)
  | int (n : Int)
  | real (chars : List Char)
  | text (chars : List Char)
  | list (items : List Node)
  | mapping (entries : List (Node × Node))
deriving Repr, Inhabited

/-- A whole number in a base, with an optional sign, that fits a signed word. -/
def inBase? (base : Nat) (cs : List Char) : Option Int :=
  let (negative, ds) := match cs with
    | '-' :: ds => (true, ds)
    | '+' :: ds => (false, ds)
    | ds => (false, ds)
  if ds.isEmpty || !(ds.all fun c => (Json.hexValue? c).any (· < base)) then none
  else
    let n : Nat := ds.foldl (fun n c => n * base + (Json.hexValue? c).getD 0) 0
    let n : Int := if negative then -(n : Int) else n
    if -0x8000000000000000 ≤ n && n < 0x8000000000000000 then some n else none

/-- The dotted words for infinity and for what is no number. -/
def isDottedWord (cs : List Char) : Bool :=
  [".inf", ".Inf", ".INF", "+.inf", "+.Inf", "+.INF", "-.inf", "-.Inf", "-.INF",
   ".nan", ".NAN"].contains (String.ofList cs)

def isReal (cs : List Char) : Bool := isDottedWord cs || (Decimal.read? cs).isSome

namespace Node

def bool? (cs : List Char) : Option Node :=
  if cs == "true".toList then some (.bool true)
  else if cs == "false".toList then some (.bool false)
  else none

def null? (cs : List Char) : Option Node :=
  if cs == ['~'] || cs == "null".toList then some .null else none

/-- A whole number with a mark of its base, or with a plus, in front. -/
def marked? : List Char → Option Node
  | '0' :: 'x' :: ds => (inBase? 16 ds).map .int
  | '0' :: 'o' :: ds => (inBase? 8 ds).map .int
  | '+' :: ds => (inBase? 10 ds).map .int
  | _ => none

def int? (cs : List Char) : Option Node := (inBase? 10 cs).map .int

def real? (cs : List Char) : Option Node := if isReal cs then some (.real cs) else none

def ofPlain (cs : List Char) : Node :=
  (marked? cs <|> null? cs <|> bool? cs <|> int? cs <|> real? cs).getD (.text cs)

/-- What a scalar stands for.  A tag says what a plain scalar must be. -/
def ofScalar (tag : Option Tag) (plain : Bool) (cs : List Char) : Node :=
  if !plain then .text cs
  else
    match tag with
    | none => ofPlain cs
    | some t =>
        if t.handle != "!!" then .text cs
        else
          match t.suffix with
          | "bool" => (bool? cs).getD .void
          | "int" => (int? cs).getD .void
          | "float" => (real? cs).getD .void
          | "null" => (null? cs).getD .void
          | _ => .text cs

/-- Keys and values in turn, made pairs; `key` is a key whose value is to come. -/
def pairs (key : Option Node) : List Node → List (Node × Node)
  | [] => []
  | n :: ns =>
      match key, n with
      | some k, n => (k, n) :: pairs none ns
      | none, .void => pairs none ns
      | none, n => pairs (some n) ns

end Node

/-! ## Reading -/

/-- Anchors: the number that a name stands for, and the nodes that are complete. -/
structure Anchors where
  names : List (String × Nat) := []
  nodes : List (Nat × Node) := []
  count : Nat := 0
deriving Inhabited

namespace Anchors

/-- A new anchor; it hides an older one of its name. -/
def declare (a : Anchors) (name : String) : Anchors :=
  { a with names := (name, a.count) :: a.names, count := a.count + 1 }

def attach (a : Anchors) (anchor : Option Nat) (n : Node) : Anchors :=
  match anchor with
  | some i => { a with nodes := (i, n) :: a.nodes }
  | none => a

/-- The node that an alias stands for; void as long as it is not complete. -/
def resolve? (a : Anchors) (name : String) : Option Node := do
  let (_, i) ← a.names.find? fun e => e.1 == name
  return ((a.nodes.find? fun e => e.1 == i).map Prod.snd).getD .void

end Anchors

/-- The anchor and the tag before a node, in either order. -/
def properties (a : Anchors) : List Token → Option Nat × Option Tag × Anchors × List Token
  | .anchor name :: .tag t :: ts => (some a.count, some t, a.declare name, ts)
  | .tag t :: .anchor name :: ts => (some a.count, some t, a.declare name, ts)
  | .anchor name :: ts => (some a.count, none, a.declare name, ts)
  | .tag t :: ts => (none, some t, a, ts)
  | ts => (none, none, a, ts)

def comes (choices : List Token) (ts : List Token) : Bool := ts.head?.any choices.contains

/-- What has been read, the anchors so far, and the tokens behind. -/
abbrev Reading (α : Type) := α × Anchors × List Token

mutual

/-- A node.  `block` says that it may be a list or a mapping by columns, and `dashes`
that it may be a list whose dashes stand no deeper than the key before it. -/
def node? : Nat → (block dashes : Bool) → Anchors → List Token → Option (Reading Node)
  | 0, _, _, _, _ => none
  | _, _, _, a, .alias name :: ts => (a.resolve? name).map fun n => (n, a, ts)
  | fuel + 1, block, dashes, a, ts =>
      let (anchor, tag, a, ts) := properties a ts
      let list : Reading (List Node) → Reading Node :=
        fun (ns, a, ts) => (.list ns, a.attach anchor (.list ns), ts)
      let mapping : Reading (List Node) → Reading Node :=
        fun (ns, a, ts) =>
          let n := Node.mapping (Node.pairs none ns)
          (n, a.attach anchor n, ts)
      let empty : Option (Reading Node) :=
        if anchor.isSome || tag.isSome then
          let n := Node.ofScalar tag true []
          some (n, a.attach anchor n, ts)
        else none
      match ts with
      | .scalar plain text :: ts =>
          let n := Node.ofScalar tag plain text
          some (n, a.attach anchor n, ts)
      | .item :: _ => if dashes then (dashed? fuel a ts).map list else empty
      | .flowList :: ts => (flowItems? fuel true a ts).map list
      | .flowMapping :: ts => (flowEntries? fuel true a ts).map mapping
      | .blockList :: ts' => if block then (blockItems? fuel a ts').map list else empty
      | .blockMapping :: ts' => if block then (blockEntries? fuel a ts').map mapping else empty
      | _ => empty

/-- A node, or null before some tokens. -/
def nodeUnless? : Nat → List Token → (block dashes : Bool) → Anchors → List Token →
    Option (Reading Node)
  | 0, _, _, _, _, _ => none
  | fuel + 1, missing, block, dashes, a, ts =>
      if comes missing ts then some (.null, a, ts) else node? fuel block dashes a ts

/-- The items of a list whose end is not marked. -/
def dashed? : Nat → Anchors → List Token → Option (Reading (List Node))
  | 0, _, _ => none
  | fuel + 1, a, .item :: ts => do
      let (n, a, ts) ← nodeUnless? fuel [.item, .key, .value, .blockEnd] true false a ts
      let (ns, a, ts) ← dashed? fuel a ts
      return (n :: ns, a, ts)
  | _, a, ts => some ([], a, ts)

/-- The items of a list by columns. -/
def blockItems? : Nat → Anchors → List Token → Option (Reading (List Node))
  | 0, _, _ => none
  | _, a, .blockEnd :: ts => some ([], a, ts)
  | fuel + 1, a, .item :: ts => do
      let (n, a, ts) ← nodeUnless? fuel [.item, .blockEnd] true false a ts
      let (ns, a, ts) ← blockItems? fuel a ts
      return (n :: ns, a, ts)
  | _, _, _ => none

/-- The keys and values, in turn, of a mapping by columns. -/
def blockEntries? : Nat → Anchors → List Token → Option (Reading (List Node))
  | 0, _, _ => none
  | _, a, .blockEnd :: ts => some ([], a, ts)
  | fuel + 1, a, ts => do
      let missing := [Token.key, .value, .blockEnd]
      let (k, a, ts) ← match ts with
        | .key :: ts => nodeUnless? fuel missing true true a ts
        | .value :: _ => some (.null, a, ts)
        | _ => none
      let (v, a, ts) ← match ts with
        | .value :: ts => nodeUnless? fuel missing true true a ts
        | ts => some (.null, a, ts)
      let (ns, a, ts) ← blockEntries? fuel a ts
      return (k :: v :: ns, a, ts)

/-- The keys and values, in turn, of a mapping in braces; before all but the first
key stands a comma. -/
def flowEntries? : Nat → Bool → Anchors → List Token → Option (Reading (List Node))
  | 0, _, _, _ => none
  | _, _, a, .flowMappingEnd :: ts => some ([], a, ts)
  | _, false, a, .comma :: .flowMappingEnd :: ts => some ([], a, ts)
  | fuel + 1, first, a, ts => do
      let ts ← match first, ts with
        | true, ts => some ts
        | false, .comma :: ts => some ts
        | false, _ => none
      let (k, v, a, ts) ← match ts with
        | .key :: ts => do
            let (k, a, ts) ← nodeUnless? fuel [.value, .comma, .flowMappingEnd] false false a ts
            let (v, a, ts) ← flowValue? fuel .flowMappingEnd a ts
            pure (k, v, a, ts)
        | .value :: _ => do
            let (v, a, ts) ← flowValue? fuel .flowMappingEnd a ts
            pure (Node.null, v, a, ts)
        | ts => do
            let (k, a, ts) ← node? fuel false false a ts
            pure (k, Node.null, a, ts)
      let (ns, a, ts) ← flowEntries? fuel false a ts
      return (k :: v :: ns, a, ts)

/-- The value behind a key in brackets, null if there is none. -/
def flowValue? : Nat → Token → Anchors → List Token → Option (Reading Node)
  | 0, _, _, _ => none
  | fuel + 1, close, a, .value :: ts => nodeUnless? fuel [.comma, close] false false a ts
  | _, _, a, ts => some (.null, a, ts)

/-- The items of a list in brackets; before all but the first stands a comma.  An
item may be a key and a value, and is a mapping then; a key that is missing takes
the mark in its place with it. -/
def flowItems? : Nat → Bool → Anchors → List Token → Option (Reading (List Node))
  | 0, _, _, _ => none
  | _, _, a, .flowListEnd :: ts => some ([], a, ts)
  | _, false, a, .comma :: .flowListEnd :: ts => some ([], a, ts)
  | fuel + 1, first, a, ts => do
      let ts ← match first, ts with
        | true, ts => some ts
        | false, .comma :: ts => some ts
        | false, _ => none
      let (n, a, ts) ← match ts with
        | .key :: ts => do
            let (k, a, ts) ←
              if comes [.value, .comma, .flowListEnd] ts then some (.null, a, ts.tail)
              else node? fuel false false a ts
            let (v, a, ts) ← flowValue? fuel .flowListEnd a ts
            pure (Node.mapping (Node.pairs none [k, v]), a, ts)
        | ts => node? fuel false false a ts
      let (ns, a, ts) ← flowItems? fuel false a ts
      return (n :: ns, a, ts)

end

/-- The node of the only document; none inside if there is no document.  A document
starts with a mark, or, if nothing stands before it, without. -/
def document? (ts : List Token) : Option (Option Node) :=
  -- every node takes a token or ends a collection
  let fuel := 3 * ts.length + 3
  let rest? : Option (Reading Node) :=
    match ts.dropWhile (· == .directive) with
    | .documentStart :: ts =>
        if ts.isEmpty || comes [.directive, .documentStart, .documentEnd] ts then
          some (.null, {}, ts)
        else node? fuel true false {} ts
    | _ => if comes [.directive] ts then none else node? fuel true false {} ts
  if ts.isEmpty then some none
  else
    match rest? with
    | some (n, _, ts) => if (ts.dropWhile (· == .documentEnd)).isEmpty then some (some n) else none
    | none => none

end Unmask.Yaml
