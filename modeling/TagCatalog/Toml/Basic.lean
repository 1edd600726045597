/-! TOML documents as trees of tables, and the rules by which statements add to them: a table is
opened once, and what was written in full is not reopened. -/

namespace TagCatalog

/-- How a table came into being, which decides what may still be added to it. -/
inductive Toml.Origin
  | opened
  /-- A longer header passes through it. -/
  | implied
  /-- A dotted key passes through it. -/
  | dotted
  | inline
  deriving DecidableEq, Repr

/-- A value, or a table. Floats, dates and times are kept as they are written. -/
inductive Toml
  | string (s : String)
  | integer (n : Int)
  | float (text : String)
  | boolean (b : Bool)
  | dateTime (text : String)
  | array (items : List Toml)
  | table (origin : Toml.Origin) (items : List (String × Toml))
  /-- Tables opened in turn under one name, the latest first. -/
  | tables (last : List (String × Toml)) (before : List (List (String × Toml)))

namespace Toml

abbrev Items := List (String × Toml)

def asInteger? : Toml → Option Int
  | .integer n => some n
  | _ => none

def asNatural? (v : Toml) : Option Nat :=
  v.asInteger?.bind fun n => if 0 ≤ n then some n.toNat else none

def asBoolean? : Toml → Option Bool
  | .boolean b => some b
  | _ => none

def asTable? : Toml → Option Items
  | .table _ items => some items
  | _ => none

namespace Items

def find? (key : String) (items : Items) : Option Toml :=
  (List.find? (·.1 = key) items).map (·.2)

def put (key : String) (v : Toml) (items : Items) : Items :=
  items.map fun item => if item.1 = key then (key, v) else item

def add (key : String) (v : Toml) (items : Items) : Items := items ++ [(key, v)]

/-- Set a key that may be dotted. It passes through tables of dotted keys, and on the way to
those through implied tables and the latest of several. -/
def assign (v : Toml) : (path : List String) → Items → Option Items
  | [], _ => none
  | [key], items =>
    match items.find? key with
    | none => some (items.add key v)
    | some _ => none
  | key :: path, items =>
    match items.find? key with
    | none => (assign v path []).map fun sub => items.add key (.table .dotted sub)
    | some (.table .dotted sub) =>
      (assign v path sub).map fun sub => items.put key (.table .dotted sub)
    | some (.table .implied sub) =>
      if path.length < 2 then none
      else (assign v path sub).map fun sub => items.put key (.table .implied sub)
    | some (.tables last before) =>
      if path.length < 2 then none
      else (assign v path last).map fun last => items.put key (.tables last before)
    | some _ => none

/-- Change the table that a path of headers leads to. Missing tables are implied, of several the
latest is taken, and there is no way into a value. -/
def change (f : Items → Option Items) : (path : List String) → Items → Option Items
  | [], items => f items
  | key :: path, items =>
    match items.find? key with
    | none => (change f path []).map fun sub => items.add key (.table .implied sub)
    | some (.table .inline _) => none
    | some (.table origin sub) =>
      (change f path sub).map fun sub => items.put key (.table origin sub)
    | some (.tables last before) =>
      (change f path last).map fun last => items.put key (.tables last before)
    | some _ => none

def openTable (key : String) (items : Items) : Option Items :=
  match items.find? key with
  | none => some (items.add key (.table .opened []))
  | some (.table .implied sub) => some (items.put key (.table .opened sub))
  | some _ => none

def openNext (key : String) (items : Items) : Option Items :=
  match items.find? key with
  | none => some (items.add key (.tables [] []))
  | some (.tables last before) => some (items.put key (.tables [] (last :: before)))
  | some _ => none

end Items

inductive Statement
  | header (path : List String)
  | nextHeader (path : List String)
  | assign (path : List String) (v : Toml)

structure Draft where
  items : Items := []
  current : List String := []

namespace Draft

def add (d : Draft) : Statement → Option Draft
  | .header path => do
    let key ← path.getLast?
    return ⟨← d.items.change (Items.openTable key) path.dropLast, path⟩
  | .nextHeader path => do
    let key ← path.getLast?
    return ⟨← d.items.change (Items.openNext key) path.dropLast, path⟩
  | .assign path v => do
    return { d with items := ← d.items.change (Items.assign v path) d.current }

end Draft

def build? (statements : List Statement) : Option Items :=
  (statements.foldlM Draft.add {}).map (·.items)

end Toml

end TagCatalog
