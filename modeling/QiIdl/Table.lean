/-!
# Tables

A table gives values to keys. Its entries are kept in increasing order of the keys, one for each key, so two
tables that give the same values are the same list.
-/

namespace QiIdl

/-- Keys with their values, in increasing order of the keys. -/
abbrev Table (κ β : Type) := List (κ × β)

namespace Table

variable {κ β : Type} [Ord κ]

/-- Gives a value to a key, in place of the one it may have. -/
def insert (key : κ) (value : β) : Table κ β → Table κ β
  | [] => [(key, value)]
  | (k, v) :: rest =>
    match compare key k with
    | .lt => (key, value) :: (k, v) :: rest
    | .eq => (key, value) :: rest
    | .gt => (k, v) :: insert key value rest

def find? (key : κ) : Table κ β → Option β
  | [] => none
  | (k, v) :: rest => if compare key k == .eq then some v else find? key rest

def contains (key : κ) (t : Table κ β) : Bool := (t.find? key).isSome

/-- Changes the value of a key, or gives it one. -/
def alter (key : κ) (change : Option β → β) (t : Table κ β) : Table κ β :=
  t.insert key (change (t.find? key))

/-- The keys that have values, in increasing order. -/
def keys (t : Table κ β) : List κ := t.map (·.1)

/-- The values, in increasing order of their keys. -/
def values (t : Table κ β) : List β := t.map (·.2)

/-- The table of some entries. Of two values for one key the later counts. -/
def ofEntries (entries : List (κ × β)) : Table κ β :=
  entries.foldl (fun t entry => t.insert entry.1 entry.2) []

end Table
end QiIdl
