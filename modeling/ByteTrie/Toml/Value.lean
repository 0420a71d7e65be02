/-!
# Tables of keys and values

A document is a table.  What may still be added to a table depends on how it came to be: a header
names its table once, dotted keys extend only tables that dotted keys made, and a table between
braces is complete.
-/

namespace ByteTrie

namespace Toml

/-- How a table came to be. -/
inductive Origin where
  | header
  /-- A later part of a header came first. -/
  | implied
  | dotted
  | inline
deriving DecidableEq, Repr

inductive Value where
  | string (s : String)
  | integer (n : Int)
  /-- A fractional number, as it is written. -/
  | float (text : String)
  | boolean (b : Bool)
  /-- A date, a time or both, as they are written. -/
  | time (text : String)
  | array (items : List Value)
  | table (origin : Origin) (entries : List (String × Value))
  /-- The tables of one repeated header, the last one first. -/
  | tables (elements : List (List (String × Value)))

abbrev Table := List (String × Value)

namespace Table

/-- Replaces the value of a key; a new key comes last. -/
def alter? (f : Option Value → Option Value) (key : String) : Table → Option Table
  | [] => (f none).map fun v => [(key, v)]
  | (k, v) :: rest =>
    if k = key then (f (some v)).map fun v => (k, v) :: rest
    else (alter? f key rest).map fun rest => (k, v) :: rest

/-- Changes the table that a header names, and makes those above it. -/
def alterAt? (f : Table → Option Table) : (keys : List String) → Table → Option Table
  | [], t => f t
  | key :: keys, t => t.alter? (enter keys) key
where
  enter (keys : List String) : Option Value → Option Value
    | none => (alterAt? f keys []).map (.table .implied)
    | some (.table .inline _) => none
    | some (.table o t) => (alterAt? f keys t).map (.table o)
    | some (.tables (t :: ts)) => (alterAt? f keys t).map fun t => .tables (t :: ts)
    | some _ => none

/-- What a header makes of a key's value: a table, unless there is one that no header implied. -/
def openTable : Option Value → Option Value
  | none => some (.table .header [])
  | some (.table .implied t) => some (.table .header t)
  | some _ => none

/-- What a repeated header makes of a key's value. -/
def openElement : Option Value → Option Value
  | none => some (.tables [[]])
  | some (.tables ts) => some (.tables ([] :: ts))
  | some _ => none

/-- Enters a header. -/
def header? (repeated : Bool) (keys : List String) (t : Table) : Option Table :=
  match keys.getLast? with
  | none => none
  | some key =>
    t.alterAt? (·.alter? (if repeated then openElement else openTable) key) keys.dropLast

/-- Enters a value under a dotted key.  The table that takes it must be `open`: the one the key
starts from, or one that dotted keys made. -/
def assign? (v : Value) : (isOpen : Bool) → (keys : List String) → Table → Option Table
  | _, [], _ => none
  | isOpen, key :: keys, t => t.alter? (enter isOpen keys) key
where
  enter (isOpen : Bool) (keys : List String) : Option Value → Option Value
    | none =>
      if keys.isEmpty then if isOpen then some v else none
      else (assign? v true keys []).map (.table .dotted)
    | some (.table .dotted t) => (assign? v true keys t).map (.table .dotted)
    | some (.table .implied t) => (assign? v false keys t).map (.table .implied)
    | some (.tables (t :: ts)) => (assign? v false keys t).map fun t => .tables (t :: ts)
    | some _ => none

end Table

end Toml

end ByteTrie
