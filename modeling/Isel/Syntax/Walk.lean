import Isel.Syntax.Node

/-!
# Walks through a tree

A walk visits a node before its children, and the children in source order.  The
visitor may decline to go below a node.  A node that occurs several times is
visited at each occurrence.
-/

namespace Isel.Syntax.Node

mutual

/-- The nodes visited from a node on, when the walk goes below exactly the nodes
that `enter` accepts. -/
def walk (enter : Node → Bool) : Node → List Node
  | .absent => []
  | .bare tag => [.bare tag]
  | .program tag decls =>
    .program tag decls :: if enter (.program tag decls) then walkAll enter decls else []
  | .function tag name params result body =>
    .function tag name params result body ::
      if enter (.function tag name params result body) then walkAll enter params ++ walk enter body
      else []
  | .param tag name type => [.param tag name type]
  | .var tag name type init =>
    .var tag name type init :: if enter (.var tag name type init) then walk enter init else []
  | .binary tag op left right =>
    .binary tag op left right ::
      if enter (.binary tag op left right) then walk enter left ++ walk enter right else []
  | .boolean tag value => [.boolean tag value]
  | .call tag callee args =>
    .call tag callee args :: if enter (.call tag callee args) then walkAll enter args else []
  | .ident tag name => [.ident tag name]
  | .number tag value => [.number tag value]
  | .string tag bytes => [.string tag bytes]
  | .compound tag stmts =>
    .compound tag stmts :: if enter (.compound tag stmts) then walkAll enter stmts else []
  | .ifThen tag cond body =>
    .ifThen tag cond body ::
      if enter (.ifThen tag cond body) then walk enter cond ++ walk enter body else []
  | .print tag expr => .print tag expr :: if enter (.print tag expr) then walk enter expr else []
  | .ret tag expr => .ret tag expr :: if enter (.ret tag expr) then walk enter expr else []
  | .scan tag target =>
    .scan tag target :: if enter (.scan tag target) then walk enter target else []
  | .loop tag cond body =>
    .loop tag cond body ::
      if enter (.loop tag cond body) then walk enter cond ++ walk enter body else []

def walkAll (enter : Node → Bool) : List Node → List Node
  | [] => []
  | n :: rest => walk enter n ++ walkAll enter rest

end

/-- All nodes of a tree in the order of a full walk. -/
def nodes (n : Node) : List Node := n.walk fun _ => true

/-- The labels of a tree in the order of a full walk. -/
def labels (n : Node) : List Label := n.nodes.filterMap label?

/-- No node occurs twice. -/
def Unshared (n : Node) : Prop := n.labels.Nodup

end Isel.Syntax.Node
