/-!
# Maps in order of insertion

A map is a list of keys with their values in which each key occurs once.  A key keeps the place at
which it was first put; putting it again changes its value only.
-/

namespace Subleq

/-- A map that remembers the order in which its keys were first put. -/
abbrev OrderedMap (α β : Type) : Type := List (α × β)

namespace OrderedMap

variable {α β : Type} [BEq α]

def put (key : α) (value : β) : OrderedMap α β → OrderedMap α β
  | [] => [(key, value)]
  | (other, old) :: rest =>
      if key == other then (other, value) :: rest else (other, old) :: put key value rest

def get? (map : OrderedMap α β) (key : α) : Option β := List.lookup key map

/-- The map that results from putting the given pairs one after the other. -/
def ofList (pairs : List (α × β)) : OrderedMap α β :=
  pairs.foldl (fun map (key, value) => put key value map) []

def keys (map : OrderedMap α β) : List α := map.map Prod.fst

/-- Puts a pair before the first one with a greater key. -/
def insertByKey [LT α] [DecidableLT α] (pair : α × β) : List (α × β) → List (α × β)
  | [] => [pair]
  | other :: rest =>
      if pair.1 < other.1 then pair :: other :: rest else other :: insertByKey pair rest

/-- The pairs in increasing order of their keys. -/
def sortedByKey [LT α] [DecidableLT α] (map : OrderedMap α β) : List (α × β) :=
  map.foldl (fun sorted pair => insertByKey pair sorted) []

end OrderedMap

end Subleq
