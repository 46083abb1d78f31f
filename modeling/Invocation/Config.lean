import Invocation.Tokenizer
import Invocation.Vars

/-!
# Configuration nodes

What `ParserParseDocument` leaves in memory: a list of nodes, each a value or a
nested list, under a name it may lack.
-/

namespace Invocation

set_option autoImplicit false

inductive Node
  | value (tag : Option Str) (text : Str)
  | block (tag : Option Str) (items : List Node)

namespace Node

mutual

def decideEq : (a b : Node) → Decidable (a = b)
  | value tag text, value tag' text' => decidable_of_iff (tag = tag' ∧ text = text') (by simp)
  | block tag items, block tag' items' =>
    have := decideEqList items items'
    decidable_of_iff (tag = tag' ∧ items = items') (by simp)
  | value _ _, block _ _ => isFalse nofun
  | block _ _, value _ _ => isFalse nofun

def decideEqList : (as bs : List Node) → Decidable (as = bs)
  | [], [] => isTrue rfl
  | a :: as, b :: bs =>
    have := decideEq a b
    have := decideEqList as bs
    decidable_of_iff (a = b ∧ as = bs) (by simp)
  | [], _ :: _ => isFalse nofun
  | _ :: _, [] => isFalse nofun

end

instance : DecidableEq Node := decideEq

def tag : Node → Option Str
  | value tag _ => tag
  | block tag _ => tag

/-- `ParserItemIsValue` -/
def isValue : Node → Bool
  | value _ _ => true
  | block _ _ => false

end Node

/-- `ListFindNamedItem` on a list of nodes. -/
def listFindNamedItem (items : List Node) (name : Str) : Option Node :=
  (KeyedList.get sameTag name (items.map fun node => (node.tag.getD [], node)))

/-- Where `ParserFindItem` stands: on the head of a list or on one of its nodes. -/
inductive ParserCursor
  | root (items : List Node)
  | item (node : Node)

def parserFindItem : List Str → ParserCursor → Option ParserCursor
  | [], cursor => some cursor
  | name :: path, .root items => (listFindNamedItem items name).bind (parserFindItem path ∘ .item)
  | name :: path, .item (.block _ items) =>
    (listFindNamedItem items name).bind (parserFindItem path ∘ .item)
  | _ :: path, .item (.value tag text) => parserFindItem path (.item (.value tag text))

/-- `ParserOpenItem` for a name that is not empty, on the items of a section. -/
def parserOpenItem (items : List Node) (name : Str) : Option (List Node) :=
  let path := if name.head? = some '/' then name.tail else name
  match parserFindItem (tokens ['/'] .none path) (.root items) with
  | some (.root items) => some items
  | some (.item (.block _ items)) => some items
  | some (.item (.value _ _)) => none
  | none => none

end Invocation
