import ReferralForest.Toml.Statement

/-!
# Documents in TOML

The statements of a document fill one table from top to bottom. Settings go to
the table that the last header opened, the outermost one before any header.
-/

namespace ReferralForest.Toml

structure Document where
  root : Table
  current : List String

namespace Document

def empty : Document := ⟨[], []⟩

def add? (d : Document) : Statement → Option Document
  | .setting path key value => do
    let root ← Table.within false (Table.setDotted path key value) d.current .header d.root
    return { d with root }
  | .header path key => do
    let root ← Table.within false (fun _ => Table.openTable key) path .header d.root
    return ⟨root, path ++ [key]⟩
  | .element path key => do
    let root ← Table.within false (fun _ => Table.openElement key) path .header d.root
    return ⟨root, path ++ [key]⟩

def read? (text : String) : Option Table := do
  let statements ← Statement.readAll? text.toList
  return (← statements.foldlM add? empty).root

end Document
end ReferralForest.Toml
