import ReferralForest.Disk
import Mathlib.Data.List.Basic

/-!
# Directories and what lies in them

The shape of a disk at a path is the node there without its children. Putting a file or
an empty directory into a directory changes the shape at one path only. A disk that grows
by new empty nodes keeps all its shapes and the entries of all its databases.
-/

namespace ReferralForest

namespace Node

theorem get?_append (path rest : Path) (n : Node) :
    n.get? (path ++ rest) = (n.get? path).bind (get? rest) := by
  induction path generalizing n with
  | nil => rfl
  | cons name path ih =>
    rw [List.cons_append, get?, get?]
    cases n.children.lookup name with
    | none => rfl
    | some below => exact ih below

theorem get?_set_append (new : Node) (path rest : Path) (n : Node) :
    (set new path n).get? (path ++ rest) = new.get? rest := by
  rw [get?_append, get?_set_self]
  rfl

theorem isDirectory_of_get?_cons {n : Node} {name : String} {path : Path}
    (h : (n.get? (name :: path)).isSome = true) : n.isDirectory = true := by
  cases n with
  | directory children => rfl
  | database size entries => cases h
  | other => cases h

def bare : Node → Node
  | directory _ => directory []
  | n => n

def entries : Node → ByteMap Bytes
  | database _ entries => entries
  | _ => .empty

@[simp] theorem entries_bare (n : Node) : n.bare.entries = n.entries := by
  cases n <;> rfl

theorem bare_of_no_children {n : Node} (h : n.children = []) : n.bare = n := by
  cases n with
  | directory children => exact congrArg directory h.symm
  | database size entries => rfl
  | other => rfl

@[simp] theorem isDirectory_bare (n : Node) : n.bare.isDirectory = n.isDirectory := by
  cases n <;> rfl

theorem bare_eq_directory {n : Node} : n.bare = directory [] ↔ n.isDirectory = true := by
  cases n <;> simp [bare, isDirectory]

end Node

namespace Disk
variable {d d' : Disk} {path other : Path} {name : String}

def shape (d : Disk) (path : Path) : Option Node := (d.node? path).map Node.bare

theorem isDirectory_eq_true : d.isDirectory path = true ↔ d.shape path = some (.directory []) := by
  rw [isDirectory, shape]
  cases d.node? path <;> simp [Node.bare_eq_directory]

theorem shape_eq_none : d.shape path = none ↔ d.node? path = none := by simp [shape]

theorem exists_of_isDirectory (h : d.isDirectory path = true) :
    ∃ node, d.node? path = some node ∧ node.isDirectory = true := by
  cases hnode : d.node? path with
  | none => simp [isDirectory, hnode] at h
  | some node => exact ⟨node, rfl, by simpa [isDirectory, hnode] using h⟩

theorem isDirectory_of_below (h : (d.node? (path ++ name :: other)).isSome = true) :
    d.isDirectory path = true := by
  rw [node?, Node.get?_append] at h
  rw [isDirectory, node?]
  cases hnode : d.root.get? path with
  | none =>
    rw [hnode] at h
    cases h
  | some n =>
    rw [hnode] at h
    exact Node.isDirectory_of_get?_cons h

theorem isDirectory_above (h : d.isDirectory path = true) (hle : other <+: path) :
    d.isDirectory other = true := by
  obtain ⟨rest, rfl⟩ := hle
  cases rest with
  | nil => simpa using h
  | cons name rest =>
    obtain ⟨node, hnode, -⟩ := exists_of_isDirectory h
    exact isDirectory_of_below (Option.isSome_iff_exists.mpr ⟨node, hnode⟩)

theorem isDirectory_of_none (h : d.node? path = none) : d.isDirectory path = false := by
  simp [isDirectory, h]

theorem shape_set (hdir : d.isDirectory path = true)
    (hfile : d.isDirectory (path ++ [name]) = false) {new : Node} (hnew : new.children = [])
    (other : Path) : (d.set (path ++ [name]) new).shape other =
      if other = path ++ [name] then some new else d.shape other := by
  by_cases heq : other = path ++ [name]
  · subst heq
    rw [if_pos rfl, shape, set, node?, Node.get?_set_self, Option.map_some,
      Node.bare_of_no_children hnew]
  rw [if_neg heq]
  by_cases hbelow : path ++ [name] <+: other
  · obtain ⟨rest, rfl⟩ := hbelow
    have hrest : rest ≠ [] := by
      rintro rfl
      simp at heq
    have hafter : (d.set (path ++ [name]) new).node? (path ++ [name] ++ rest) = none := by
      rw [set, node?, Node.get?_set_append, Node.get?_of_no_children hnew hrest]
    have hbefore : d.node? (path ++ [name] ++ rest) = none := by
      obtain ⟨first, rest, rfl⟩ := List.exists_cons_of_ne_nil hrest
      by_contra hsome
      have hdir' := isDirectory_of_below (Option.isSome_iff_ne_none.mpr hsome)
      rw [hfile] at hdir'
      cases hdir'
    rw [shape, shape, hafter, hbefore]
  by_cases habove : other <+: path ++ [name]
  · have hother : d.isDirectory other = true := by
      apply isDirectory_above hdir
      rcases List.prefix_concat_iff.mp habove with h | h
      · exact absurd h heq
      · exact h
    have hother' : (d.set (path ++ [name]) new).isDirectory other = true := by
      obtain ⟨rest, hrest⟩ := habove
      cases rest with
      | nil =>
        rw [List.append_nil] at hrest
        exact absurd hrest heq
      | cons first rest =>
        have hsome : ((d.set (path ++ [name]) new).node? (other ++ first :: rest)).isSome := by
          rw [hrest, set, node?, Node.get?_set_self]
          rfl
        exact isDirectory_of_below hsome
    rw [isDirectory_eq_true.mp hother, isDirectory_eq_true.mp hother']
  · rw [shape, shape, set, node?, node?, Node.get?_set_of_apart new hbelow habove]

def stored (d : Disk) (path : Path) : ByteMap Bytes :=
  ((d.node? (path ++ [dataFile])).map Node.entries).getD .empty

theorem stored_eq (d : Disk) (path : Path) :
    d.stored path = ((d.shape (path ++ [dataFile])).map Node.entries).getD .empty := by
  rw [stored, shape]
  cases d.node? (path ++ [dataFile]) <;> simp

inductive Creates (P : Path → Prop) (d : Disk) : Disk → Prop
  | nothing : Creates P d d
  | node {d' : Disk} {path : Path} {name : String} {new : Node} (h : Creates P d d')
      (hdir : d'.isDirectory path = true) (hnone : d'.node? (path ++ [name]) = none)
      (hnew : new.children = []) (hempty : new.entries = .empty) (hP : P (path ++ [name])) :
      Creates P d (d'.set (path ++ [name]) new)

namespace Creates
variable {P : Path → Prop}

theorem trans {d'' : Disk} (h : Creates P d d') (h' : Creates P d' d'') : Creates P d d'' := by
  induction h' with
  | nothing => exact h
  | node _ hdir hnone hnew hempty hP ih => exact .node ih hdir hnone hnew hempty hP

theorem shape_of_not (h : Creates P d d') (hother : ¬P other) : d'.shape other = d.shape other := by
  induction h with
  | nothing => rfl
  | node _ hdir hnone hnew _ hP ih =>
    rw [shape_set hdir (isDirectory_of_none hnone) hnew, if_neg, ih]
    rintro rfl
    exact hother hP

theorem shape_of_some {node : Node} (h : Creates P d d') (hnode : d.shape other = some node) :
    d'.shape other = some node := by
  induction h with
  | nothing => exact hnode
  | node _ hdir hnone hnew _ _ ih =>
    rw [shape_set hdir (isDirectory_of_none hnone) hnew, if_neg, ih]
    rintro rfl
    rw [shape_eq_none.mpr hnone] at ih
    cases ih

theorem isDirectory (h : Creates P d d') (hdir : d.isDirectory other = true) :
    d'.isDirectory other = true := by
  rw [isDirectory_eq_true] at hdir ⊢
  exact h.shape_of_some hdir

theorem stored_eq (h : Creates P d d') (path : Path) : d'.stored path = d.stored path := by
  induction h with
  | nothing => rfl
  | node _ hdir hnone hnew hempty _ ih =>
    rw [← ih, Disk.stored_eq, Disk.stored_eq, shape_set hdir (isDirectory_of_none hnone) hnew]
    split
    · rename_i heq
      rw [heq, shape_eq_none.mpr hnone]
      exact hempty
    · rfl

end Creates

end Disk
end ReferralForest
