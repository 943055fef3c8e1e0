import ReferralForest.Toml.Scalar

/-!
# Values and tables in TOML

A table remembers how it came about, for that decides who may add to it: one
with a header of its own is closed to dotted keys, one that a longer header
implies may still get its header, one that dotted keys made is open to dotted
keys alone, and an inline table is closed to all. A list of tables is entered
through its last element.
-/

namespace ReferralForest.Toml

inductive Origin
  | header
  | implied
  | dotted
  | inline
  deriving DecidableEq

inductive Value
  | string (text : String)
  | scalar (s : Scalar)
  | array (items : List Value)
  | table (origin : Origin) (entries : List (String × Value))
  | tables (elements : List (List (String × Value)))

abbrev Table := List (String × Value)

namespace Table

def set (key : String) (value : Value) : Table → Table
  | [] => [(key, value)]
  | e :: rest => if e.1 = key then (key, value) :: rest else e :: set key value rest

def within (dotted : Bool) (change : Origin → Table → Option Table) :
    List String → Origin → Table → Option Table
  | [], origin, t => change origin t
  | key :: path, _, t =>
    let enter := fun (origin : Origin) (entries : Table) => do
      return t.set key (.table origin (← within dotted change path origin entries))
    match t.lookup key with
    | none => enter (if dotted then .dotted else .implied) []
    | some (.table .inline _) => none
    | some (.table .header entries) => if dotted then none else enter .header entries
    | some (.table origin entries) => enter origin entries
    | some (.tables elements) => do
      let last ← elements.getLast?
      return t.set key (.tables (elements.dropLast ++ [← within dotted change path .header last]))
    | some _ => none

def addNew (key : String) (value : Value) (t : Table) : Option Table :=
  if (t.lookup key).isSome then none else some (t ++ [(key, value)])

def setDotted (path : List String) (key : String) (value : Value) :
    Origin → Table → Option Table :=
  within true
    (fun origin t =>
      if path.isEmpty || origin = .dotted then addNew key value t else none)
    path

/-- Opens the table of a header, which nothing but longer headers may name before. -/
def openTable (key : String) (t : Table) : Option Table :=
  match t.lookup key with
  | none => some (t ++ [(key, .table .header [])])
  | some (.table .implied entries) => some (t.set key (.table .header entries))
  | some _ => none

def openElement (key : String) (t : Table) : Option Table :=
  match t.lookup key with
  | none => some (t ++ [(key, .tables [[]])])
  | some (.tables elements) => some (t.set key (.tables (elements ++ [[]])))
  | some _ => none

end Table
end ReferralForest.Toml
