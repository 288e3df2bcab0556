import TieredEngine.GuestError
/-!
# Expressions of the guest language

A routine's body is a tree of expressions, each with an `ExprId`.
`Expr.number` gives the ids in pre-order, and `children`, `operands`,
`preorder` and `pathTo` are the views of the tree that interpretation,
resumption and specialization share. Operands are the children whose values an
expression collects before it acts; the parts of a block and the bodies of
conditionals and loops are not operands.
-/

namespace TieredEngine

/-- A guest expression; the first field of every case is its id. -/
inductive Expr where
  /-- A literal. -/
  | constant (id : ExprId) (value : Value)
  /-- Read an argument; a missing one reads as null. -/
  | argument (id : ExprId) (index : UInt64)
  /-- Read a local slot. -/
  | readLocal (id : ExprId) (slot : UInt64)
  /-- Write a local slot and give the written value. -/
  | writeLocal (id : ExprId) (slot : UInt64) (value : Expr)
  | binary (id : ExprId) (op : BinaryOp) (lhs rhs : Expr)
  | unary (id : ExprId) (op : UnaryOp) (operand : Expr)
  /-- A sequence; gives the value of its last part, null if it has none. -/
  | block (id : ExprId) (parts : List Expr)
  /-- A conditional without an alternative, which then gives null. -/
  | ifThen (id : ExprId) (condition body : Expr)
  | ifElse (id : ExprId) (condition body alternative : Expr)
  /-- A loop; gives null. -/
  | whileLoop (id : ExprId) (condition body : Expr)
  /-- Return from the routine. -/
  | ret (id : ExprId) (value : Expr)
  /-- Call another target. -/
  | call (id : ExprId) (target : TargetId) (arguments : List Expr)

namespace Expr

instance : Inhabited Expr := ⟨.constant 0 .null⟩

/-- The id of an expression. -/
def id : Expr → ExprId
  | .constant id _ | .argument id _ | .readLocal id _ | .writeLocal id _ _ | .binary id _ _ _
  | .unary id _ _ | .block id _ | .ifThen id _ _ | .ifElse id _ _ _ | .whileLoop id _ _
  | .ret id _ | .call id _ _ => id

/-- All children, in evaluation order. -/
def children : Expr → List Expr
  | .constant _ _ | .argument _ _ | .readLocal _ _ => []
  | .writeLocal _ _ value => [value]
  | .binary _ _ lhs rhs => [lhs, rhs]
  | .unary _ _ operand => [operand]
  | .block _ parts => parts
  | .ifThen _ condition body => [condition, body]
  | .ifElse _ condition body alternative => [condition, body, alternative]
  | .whileLoop _ condition body => [condition, body]
  | .ret _ value => [value]
  | .call _ _ arguments => arguments

/-- The children whose values are collected before the expression acts. -/
def operands : Expr → List Expr
  | .block _ _ => []
  | .ifThen _ condition _ | .ifElse _ condition _ _ | .whileLoop _ condition _ => [condition]
  | e => e.children

/-! ## Size and numbering -/

mutual

/-- How many expressions the tree has. -/
def nodeCount : Expr → Nat
  | .constant _ _ | .argument _ _ | .readLocal _ _ => 1
  | .writeLocal _ _ value => 1 + value.nodeCount
  | .binary _ _ lhs rhs => 1 + lhs.nodeCount + rhs.nodeCount
  | .unary _ _ operand => 1 + operand.nodeCount
  | .block _ parts => 1 + nodeCountAll parts
  | .ifThen _ condition body => 1 + condition.nodeCount + body.nodeCount
  | .ifElse _ condition body alternative =>
    1 + condition.nodeCount + body.nodeCount + alternative.nodeCount
  | .whileLoop _ condition body => 1 + condition.nodeCount + body.nodeCount
  | .ret _ value => 1 + value.nodeCount
  | .call _ _ arguments => 1 + nodeCountAll arguments

/-- How many expressions a list of trees has. -/
def nodeCountAll : List Expr → Nat
  | [] => 0
  | e :: es => e.nodeCount + nodeCountAll es

end

mutual

/-- Give the tree the ids `first`, `first + 1`, … in pre-order. -/
def number : Expr → ExprId → Expr
  | .constant _ value, first => .constant first value
  | .argument _ index, first => .argument first index
  | .readLocal _ slot, first => .readLocal first slot
  | .writeLocal _ slot value, first => .writeLocal first slot (value.number (first + 1))
  | .binary _ op lhs rhs, first =>
    .binary first op (lhs.number (first + 1)) (rhs.number (first + 1 + lhs.nodeCount))
  | .unary _ op operand, first => .unary first op (operand.number (first + 1))
  | .block _ parts, first => .block first (numberAll parts (first + 1))
  | .ifThen _ condition body, first =>
    .ifThen first (condition.number (first + 1)) (body.number (first + 1 + condition.nodeCount))
  | .ifElse _ condition body alternative, first =>
    .ifElse first (condition.number (first + 1)) (body.number (first + 1 + condition.nodeCount))
      (alternative.number (first + 1 + condition.nodeCount + body.nodeCount))
  | .whileLoop _ condition body, first =>
    .whileLoop first (condition.number (first + 1)) (body.number (first + 1 + condition.nodeCount))
  | .ret _ value, first => .ret first (value.number (first + 1))
  | .call _ target arguments, first => .call first target (numberAll arguments (first + 1))

/-- Number a list of trees one after the other. -/
def numberAll : List Expr → ExprId → List Expr
  | [], _ => []
  | e :: es, first => e.number first :: numberAll es (first + e.nodeCount)

end

/-! ## Traversal and lookup -/

mutual

/-- The tree's expressions in pre-order. -/
def preorder : Expr → List Expr
  | .constant id value => [.constant id value]
  | .argument id index => [.argument id index]
  | .readLocal id slot => [.readLocal id slot]
  | .writeLocal id slot value => .writeLocal id slot value :: value.preorder
  | .binary id op lhs rhs => .binary id op lhs rhs :: (lhs.preorder ++ rhs.preorder)
  | .unary id op operand => .unary id op operand :: operand.preorder
  | .block id parts => .block id parts :: preorderAll parts
  | .ifThen id condition body => .ifThen id condition body :: (condition.preorder ++ body.preorder)
  | .ifElse id condition body alternative =>
    .ifElse id condition body alternative ::
      (condition.preorder ++ body.preorder ++ alternative.preorder)
  | .whileLoop id condition body =>
    .whileLoop id condition body :: (condition.preorder ++ body.preorder)
  | .ret id value => .ret id value :: value.preorder
  | .call id target arguments => .call id target arguments :: preorderAll arguments

/-- The expressions of a list of trees, tree by tree. -/
def preorderAll : List Expr → List Expr
  | [] => []
  | e :: es => e.preorder ++ preorderAll es

end

/-- One step of the search for an id: the expression itself, or below it. -/
def stepTo (goal : ExprId) (e : Expr) (below : Option (List Expr)) : Option (List Expr) :=
  if e.id = goal then some [e] else below.map (e :: ·)

mutual

/-- The chain of expressions from the root of the tree down to the first one,
in pre-order, with the given id. -/
def pathTo (goal : ExprId) : Expr → Option (List Expr)
  | .constant id value => stepTo goal (.constant id value) none
  | .argument id index => stepTo goal (.argument id index) none
  | .readLocal id slot => stepTo goal (.readLocal id slot) none
  | .writeLocal id slot value => stepTo goal (.writeLocal id slot value) (pathTo goal value)
  | .binary id op lhs rhs =>
    stepTo goal (.binary id op lhs rhs) ((pathTo goal lhs).or (pathTo goal rhs))
  | .unary id op operand => stepTo goal (.unary id op operand) (pathTo goal operand)
  | .block id parts => stepTo goal (.block id parts) (pathToAny goal parts)
  | .ifThen id condition body =>
    stepTo goal (.ifThen id condition body) ((pathTo goal condition).or (pathTo goal body))
  | .ifElse id condition body alternative =>
    stepTo goal (.ifElse id condition body alternative)
      (((pathTo goal condition).or (pathTo goal body)).or (pathTo goal alternative))
  | .whileLoop id condition body =>
    stepTo goal (.whileLoop id condition body) ((pathTo goal condition).or (pathTo goal body))
  | .ret id value => stepTo goal (.ret id value) (pathTo goal value)
  | .call id target arguments => stepTo goal (.call id target arguments) (pathToAny goal arguments)

/-- The chain in the first tree of a list that has the id. -/
def pathToAny (goal : ExprId) : List Expr → Option (List Expr)
  | [] => none
  | e :: es => (pathTo goal e).or (pathToAny goal es)

end

/-- The local slot an expression touches, if any. -/
def slot? : Expr → Option UInt64
  | .readLocal _ slot | .writeLocal _ slot _ => some slot
  | _ => none

/-- The argument an expression reads, if any. -/
def argument? : Expr → Option UInt64
  | .argument _ index => some index
  | _ => none

/-- The call an expression makes, if any: its site and its target. -/
def callSite? : Expr → Option (ExprId × TargetId)
  | .call id target _ => some (id, target)
  | _ => none

/-- One more than the greatest of some words, counted in a word: behind the last
word comes zero. -/
def bound (ws : List UInt64) : UInt64 := ws.foldr (fun w m => max (w + 1) m) 0

end Expr

end TieredEngine
