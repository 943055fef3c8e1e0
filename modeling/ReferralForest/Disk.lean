import ReferralForest.ByteMap
import ReferralForest.Error

/-!
# Directories and files

A disk is a tree of named nodes, and a path lists the names from the root to one
of them. A database keeps the size that it was first opened with. A text with
slashes names a path as a file system reads it: empty parts and single dots stay
where they are, double dots go up, and only a directory can be gone through. A
name has at most 255 bytes and a text at most 4095. A directory is fit for a
database when it is empty or has a data file already.
-/

namespace ReferralForest

inductive Node
  | directory (children : List (String × Node))
  | database (size : Nat) (entries : ByteMap Bytes)
  | other

abbrev Path := List String

namespace Node

def isDirectory : Node → Bool
  | directory _ => true
  | _ => false

def children : Node → List (String × Node)
  | directory children => children
  | _ => []

@[simp] theorem children_directory (children : List (String × Node)) :
    (directory children).children = children := rfl

def get? : Path → Node → Option Node
  | [], n => some n
  | name :: path, n => (n.children.lookup name).bind (get? path)

def others (name : String) (l : List (String × Node)) : List (String × Node) :=
  l.filter fun e => e.1 != name

def set (new : Node) : Path → Node → Node
  | [], _ => new
  | name :: path, n =>
    let below := set new path ((n.children.lookup name).getD (directory []))
    directory ((name, below) :: others name n.children)

theorem lookup_others {name name' : String} (h : name' ≠ name) (l : List (String × Node)) :
    (others name l).lookup name' = l.lookup name' := by
  induction l with
  | nil => rfl
  | cons e l ih =>
    rw [others] at ih ⊢
    by_cases hk : e.1 = name
    · have hb : (name' == e.1) = false := beq_false_of_ne (hk ▸ h)
      rw [List.filter_cons_of_neg (by simp [hk]), List.lookup_cons, hb]
      exact ih
    · rw [List.filter_cons_of_pos (by simp [hk]), List.lookup_cons, List.lookup_cons, ih]

theorem get?_set_self (new : Node) (path : Path) (n : Node) :
    (set new path n).get? path = some new := by
  induction path generalizing n with
  | nil => rfl
  | cons name path ih => simp [set, get?, children, ih]

theorem get?_of_no_children {n : Node} (h : n.children = []) {path : Path} (hpath : path ≠ []) :
    n.get? path = none := by
  cases path with
  | nil => exact absurd rfl hpath
  | cons name path => simp [get?, h]

theorem get?_set_of_apart (new : Node) {path other : Path} (h : ¬path <+: other)
    (h' : ¬other <+: path) (n : Node) : (set new path n).get? other = n.get? other := by
  induction path generalizing other n with
  | nil => exact absurd List.nil_prefix h
  | cons name path ih =>
    cases other with
    | nil => exact absurd List.nil_prefix h'
    | cons name' other =>
      rw [set, get?, get?, children_directory, List.lookup_cons]
      by_cases hname : name' = name
      · subst hname
        rw [List.cons_prefix_cons] at h h'
        simp only [true_and] at h h'
        simp only [beq_self_eq_true, Option.bind_some]
        rw [ih h h']
        cases n.children.lookup name' with
        | some below => rfl
        | none =>
          apply get?_of_no_children rfl
          rintro rfl
          exact h' List.nil_prefix
      · simp only [beq_false_of_ne hname, lookup_others hname]

end Node

structure Disk where
  root : Node

namespace Disk

def node? (d : Disk) (path : Path) : Option Node := d.root.get? path

def isDirectory (d : Disk) (path : Path) : Bool := (d.node? path).any Node.isDirectory

def set (d : Disk) (path : Path) (node : Node) : Disk := ⟨node.set path d.root⟩

def names (d : Disk) (directory : Path) : List String :=
  match d.node? directory with
  | some node => (node.children.map (·.1)).mergeSort fun a b => decide (a ≤ b)
  | none => []

def parts (text : String) : List String := (text.toList.splitOn '/').map String.ofList

def stays (part : String) : Bool := part = "" || part = "."

def moves (text : String) : List String := (parts text).filter (!stays ·)

def endsInDot (text : String) : Bool := ((parts text).filter (· ≠ "")).getLast? = some "."

def hasNul (text : String) : Bool := text.toList.contains '\x00'

def isTooLong (text : String) : Bool := 4095 < text.utf8ByteSize

def find? (d : Disk) (text : String) : Option (Path × Node) := do
  if hasNul text || isTooLong text then none
  let path ← (moves text).foldlM (fun path part =>
    if !d.isDirectory path then none
    else some (if part = ".." then path.dropLast else path ++ [part])) []
  let node ← d.node? path
  if ((parts text).getLast?.map stays).getD false && !node.isDirectory then none
  return (path, node)

/-- Goes along `parts` from a directory and makes the directories that are
missing. A file in the way is no directory to go through as long as nothing had
to be made, and afterwards it stands where a directory should be made. After the
last part a dot, if there is one, asks for a directory that is there already. -/
def makeAlong (dot : Bool) (made : Bool) (d : Disk) (path : Path) :
    List String → Except FileFault Path × Disk
  | [] => (.ok path, d)
  | part :: rest =>
    let next := path ++ [part]
    if part = ".." then d.makeAlong dot made path.dropLast rest
    else if 255 < part.utf8ByteSize then (.error .nameTooLong, d)
    else
      match d.node? next with
      | some node =>
        if node.isDirectory then d.makeAlong dot made next rest
        else if rest.isEmpty then (.error (if dot then .notADirectory else .fileExists), d)
        else (.error (if made then .fileExists else .notADirectory), d)
      | none =>
        if rest.isEmpty && dot then (.error .noEntry, d)
        else (d.set next (.directory [])).makeAlong dot true next rest

/-- Makes a directory and all that lead to it; those made before a fault stay. -/
def makeDirectories (d : Disk) (text : String) : Except FileFault Path × Disk :=
  if hasNul text then (.error .nulInName, d)
  else if isTooLong text then (.error .nameTooLong, d)
  else d.makeAlong (endsInDot text) false [] (moves text)

def place (d : Disk) (directory : Path) (text : String) : Disk :=
  let names := moves text
  if (parts text).getLast? = some "" then (d.makeAlong false false directory names).2
  else
    match d.makeAlong false false directory names.dropLast, names.getLast? with
    | (.ok path, d), some name => d.set (path ++ [name]) .other
    | (_, d), _ => d

def dataFile : String := "data.mdb"
def lockFile : String := "lock.mdb"

/-- The text of a name under a directory; an absolute name stands alone. -/
def join (directory name : String) : String :=
  if name.startsWith "/" then name
  else if directory.endsWith "/" then directory ++ name
  else directory ++ "/" ++ name

def textOf (path : Path) : String := "/" ++ "/".intercalate path

def checkDirectory (d : Disk) (text : String) : Except DirectoryFault Unit :=
  match d.find? text with
  | none => .ok ()
  | some (path, node) =>
    if !node.isDirectory then .error (.notADirectory text)
    else if (d.find? (join text dataFile)).isSome then .ok ()
    else if (d.names path).isEmpty then .ok ()
    else .error (.dataFileMissing text)

end Disk
end ReferralForest
