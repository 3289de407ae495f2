import ShiftReduce.Item.Basic

/-! Sets of items closed under the closure step, and the step from one such set
over a symbol to the next. -/

namespace ShiftReduce

/-- Items with distinct keys in increasing order. -/
abbrev ItemSet := List Item

namespace ItemSet

def ofList (items : List Item) : ItemSet :=
  Sorted.ofList Item.cmp items

def keys (items : ItemSet) : List (RuleId × Nat × Option Symbol) :=
  items.map Item.key

/-- A set being closed, with the items whose closure step is still to be made. -/
structure Closing where
  found : ItemSet := []
  pending : List Item := []

def Closing.add (closing : Closing) (item : Item) : Closing :=
  if Sorted.contains Item.cmp item closing.found then closing
  else
    { found := Sorted.insert Item.cmp item closing.found
      pending := item :: closing.pending }

/-- Makes the closure step of the item found last until none is pending. -/
def close (g : Grammar) : Nat → Closing → ItemSet
  | 0, closing => closing.found
  | fuel + 1, closing =>
      match closing.pending with
      | [] => closing.found
      | item :: pending =>
          close g fuel ((item.expand g).foldl Closing.add { closing with pending })

/-- Each item found is expanded once; besides the given ones these are initial
items of rules with a terminal or nothing for lookahead. -/
def closeLimit (g : Grammar) (items : List Item) : Nat :=
  items.length + g.rules.length * (g.tokens.length + 1)

/-- The least set with the given items that has all their closure steps. -/
def closure (g : Grammar) (items : List Item) : ItemSet :=
  close g (closeLimit g items) (items.foldl Closing.add {})

def closure? (g : Grammar) (items : List Item) : Option ItemSet :=
  if items.all (·.inRange g) then some (closure g items) else none

def before (g : Grammar) (items : ItemSet) (symbol : Symbol) : List Item :=
  items.filter fun item => (item.next? g).map Token.symbol = some symbol

def goto (g : Grammar) (items : ItemSet) (symbol : Symbol) : ItemSet :=
  closure g ((items.before g symbol).map Item.advance)

/-- The sets passed through on the way along a path of symbols, the first included. -/
def along (g : Grammar) (items : ItemSet) : List Symbol → List ItemSet
  | [] => [items]
  | symbol :: path => items :: along g (goto g items symbol) path

end ItemSet

end ShiftReduce
