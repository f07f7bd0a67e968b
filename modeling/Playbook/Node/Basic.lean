import Playbook.Diagnostic
import Playbook.Tag
import Playbook.Token.Basic

/-!
Nodes: the structure of a document as a tree. An alias is the node it refers to, so a node may stand
in several places; all of them carry the same number, and no other node does.
-/

namespace Playbook

structure NodeHead where
  /-- Nodes are numbered as they are completed, so children come before their parents. -/
  id : Nat
  tag : Tag
  span : Span
  deriving Repr, DecidableEq, Inhabited

inductive Node
  | scalar (head : NodeHead) (text : String) (style : Style)
  | sequence (head : NodeHead) (items : List Node)
  | mapping (head : NodeHead) (pairs : List (Node × Node))
  deriving Repr, Inhabited

namespace Node

def head : Node → NodeHead
  | scalar head _ _ => head
  | sequence head _ => head
  | mapping head _ => head

def id (node : Node) : Nat := node.head.id

def tag (node : Node) : Tag := node.head.tag

def span (node : Node) : Span := node.head.span

def start (node : Node) : Mark := node.span.start

def shape : Node → Shape
  | scalar .. => .scalar
  | sequence .. => .sequence
  | mapping .. => .mapping

end Node

end Playbook
