import ReferralForest.Proofs.Directories

/-!
# Texts that lead to paths

A name is one step down from the directory that a text leads to. Making directories along
a text adds empty ones where nothing was and ends where the text leads. Along a text whose
directories are all there, nothing is made but what lies below the last name.
-/

namespace ReferralForest.Disk

variable {d d' : Disk} {path : Path} {directory name : String}

def through (path : Path) (part : String) : Path :=
  if part = ".." then path.dropLast else path ++ [part]

def follow (path : Path) (parts : List String) : Path := parts.foldl through path

theorem follow_up (path : Path) (rest : List String) :
    follow path (".." :: rest) = follow path.dropLast rest := by
  rw [follow, List.foldl_cons, through, if_pos rfl, follow]

theorem follow_down {part : String} (h : part ≠ "..") (path : Path) (rest : List String) :
    follow path (part :: rest) = follow (path ++ [part]) rest := by
  rw [follow, List.foldl_cons, through, if_neg h, follow]

def destination (text : String) : Path := follow [] (moves text)

structure SingleName (name : String) : Prop where
  nonempty : name ≠ ""
  not_here : name ≠ "."
  not_up : name ≠ ".."
  no_slash : '/' ∉ name.toList

theorem singleName_dataFile : SingleName dataFile := by
  constructor <;> decide

theorem parts_of_no_slash {text : String} (h : '/' ∉ text.toList) : parts text = [text] := by
  rw [parts, List.splitOn_eq_singleton h, List.map_singleton, String.ofList_toList]

theorem parts_append_slash (before after : String) :
    parts (before ++ "/" ++ after) = parts before ++ parts after := by
  have htext : (before ++ "/" ++ after).toList = before.toList ++ '/' :: after.toList := by
    simp [String.toList_append]
  rw [parts, htext, List.splitOn_append_cons_self, List.map_append]
  rfl

theorem join_eq (directory : String) (hname : SingleName name) :
    ∃ before, (before = directory ∨ directory = before ++ "/") ∧
      join directory name = before ++ "/" ++ name := by
  have hrelative : name.startsWith "/" = false := by
    rw [← Bool.not_eq_true, String.startsWith_string_iff]
    intro hle
    exact hname.no_slash (hle.subset (by decide))
  rw [join, hrelative]
  by_cases hslash : directory.endsWith "/" = true
  · have hsuffix := hslash
    rw [String.endsWith_eq_endsWith_toSlice, String.Slice.endsWith_string_iff] at hsuffix
    obtain ⟨before, hbefore⟩ := hsuffix
    have hdirectory : directory = String.ofList before ++ "/" := by
      apply String.toList_injective
      simpa [String.toList_append] using hbefore.symm
    refine ⟨String.ofList before, .inr hdirectory, ?_⟩
    simp [hslash, ← hdirectory]
  · exact ⟨directory, .inl rfl, by simp [hslash]⟩

theorem moves_join (directory : String) (hname : SingleName name) :
    moves (join directory name) = moves directory ++ [name] := by
  have hlast : [name].filter (!stays ·) = [name] := by
    simp [stays, hname.nonempty, hname.not_here]
  obtain ⟨before, hbefore, hjoin⟩ := join_eq directory hname
  rw [hjoin, moves, parts_append_slash, parts_of_no_slash hname.no_slash, List.filter_append, hlast]
  rcases hbefore with rfl | rfl
  · rfl
  · have hempty : parts (before ++ "/") = parts before ++ parts "" := by
      simpa using parts_append_slash before ""
    have hparts : parts "" = [""] := by decide
    rw [moves, hempty, hparts, List.filter_append]
    simp [stays]

theorem destination_join (directory : String) (hname : SingleName name) :
    destination (join directory name) = destination directory ++ [name] := by
  rw [destination, moves_join directory hname, follow, List.foldl_concat, through,
    if_neg hname.not_up]
  rfl

theorem hasNul_append (before after : String) :
    hasNul (before ++ after) = (hasNul before || hasNul after) := by
  simp [hasNul, String.toList_append, List.contains_eq_mem, Bool.decide_or]

theorem hasNul_join (directory : String) (hname : SingleName name) :
    hasNul (join directory name) = (hasNul directory || hasNul name) := by
  have hslash : hasNul "/" = false := by decide
  obtain ⟨before, rfl | rfl, hjoin⟩ := join_eq directory hname
  · rw [hjoin, hasNul_append, hasNul_append, hslash, Bool.or_false]
  · rw [hjoin, hasNul_append]

theorem utf8ByteSize_le_join (directory : String) (hname : SingleName name) :
    directory.utf8ByteSize ≤ (join directory name).utf8ByteSize := by
  obtain ⟨before, rfl | rfl, hjoin⟩ := join_eq directory hname <;>
    simp only [hjoin, String.utf8ByteSize_append] <;> omega

theorem makeAlong_spec {dot made : Bool} {parts : List String}
    (hdir : d.isDirectory path = true) :
    Creates (fun _ => True) d (d.makeAlong dot made path parts).2 ∧
      ∀ target, (d.makeAlong dot made path parts).1 = .ok target →
        target = follow path parts ∧
          (d.makeAlong dot made path parts).2.isDirectory target = true := by
  induction parts generalizing d path made with
  | nil =>
    refine ⟨.nothing, fun target h => ?_⟩
    cases h
    exact ⟨rfl, hdir⟩
  | cons part rest ih =>
    rw [makeAlong]
    by_cases hup : part = ".."
    · subst hup
      rw [if_pos rfl, follow_up]
      exact ih (isDirectory_above hdir path.dropLast_prefix)
    rw [if_neg hup, follow_down hup]
    by_cases hlong : 255 < part.utf8ByteSize
    · rw [if_pos hlong]
      exact ⟨.nothing, fun _ h => by cases h⟩
    rw [if_neg hlong]
    cases hnode : d.node? (path ++ [part]) with
    | some node =>
      by_cases hnext : node.isDirectory = true
      · simp only [if_pos hnext]
        apply ih
        simp [isDirectory, hnode, hnext]
      · simp only [if_neg hnext]
        split
        · exact ⟨.nothing, fun _ h => by cases h⟩
        · exact ⟨.nothing, fun _ h => by cases h⟩
    | none =>
      by_cases hdot : (rest.isEmpty && dot) = true
      · simp only [if_pos hdot]
        exact ⟨.nothing, fun _ h => by cases h⟩
      · simp only [if_neg hdot]
        have hmade : (d.set (path ++ [part]) (.directory [])).isDirectory (path ++ [part]) := by
          rw [isDirectory, set, node?, Node.get?_set_self]
          rfl
        refine (ih hmade).imp (.trans ?_) id
        exact .node .nothing hdir hnode rfl rfl trivial

theorem makeDirectories_spec (text : String) (hroot : d.isDirectory [] = true) :
    Creates (fun _ => True) d (d.makeDirectories text).2 ∧
      ∀ target, (d.makeDirectories text).1 = .ok target →
        target = destination text ∧ (d.makeDirectories text).2.isDirectory target = true := by
  rw [makeDirectories]
  split
  · exact ⟨.nothing, nofun⟩
  · split
    · exact ⟨.nothing, nofun⟩
    · exact makeAlong_spec hroot

section Walks
variable {way : List String}

def Walks (d : Disk) : Path → List String → Prop
  | path, [] => d.isDirectory path = true
  | path, part :: rest => d.isDirectory path = true ∧ Walks d (through path part) rest

def pass (d : Disk) (path : Path) (part : String) : Option Path :=
  if !d.isDirectory path then none else some (through path part)

theorem find?_eq (d : Disk) (text : String) : d.find? text =
    if hasNul text || isTooLong text then none
    else ((moves text).foldlM (pass d) []).bind fun path => (d.node? path).bind fun node =>
      if ((parts text).getLast?.map stays).getD false && !node.isDirectory then none
      else some (path, node) := by
  rw [find?]
  cases hasNul text || isTooLong text <;> rfl

namespace Walks

theorem isDirectory (h : Walks d path way) : d.isDirectory path = true := by
  cases way with
  | nil => exact h
  | cons part rest => exact h.1

theorem target (h : Walks d path way) : d.isDirectory (follow path way) = true := by
  induction way generalizing path with
  | nil => exact h
  | cons part rest ih => exact ih h.2

theorem mono (hdir : ∀ path, d.isDirectory path = true → d'.isDirectory path = true)
    (h : Walks d path way) : Walks d' path way := by
  induction way generalizing path with
  | nil => exact hdir path h
  | cons part rest ih => exact ⟨hdir path h.1, ih h.2⟩

theorem concat {part : String} (h : Walks d path way)
    (hdir : d.isDirectory (through (follow path way) part) = true) :
    Walks d path (way ++ [part]) := by
  induction way generalizing path with
  | nil => exact ⟨h, hdir⟩
  | cons first rest ih => exact ⟨h.1, ih h.2 hdir⟩

theorem foldlM_eq (h : Walks d path way) :
    way.foldlM (pass d) path = some (follow path way) := by
  induction way generalizing path with
  | nil => rfl
  | cons part rest ih =>
    rw [List.foldlM_cons, pass, h.1]
    exact ih h.2

theorem of_foldlM {target : Path} (h : way.foldlM (pass d) path = some target)
    (hdir : d.isDirectory target = true) : Walks d path way := by
  induction way generalizing path with
  | nil =>
    cases h
    exact hdir
  | cons part rest ih =>
    rw [List.foldlM_cons, pass] at h
    cases hpath : d.isDirectory path with
    | false =>
      rw [hpath] at h
      cases h
    | true =>
      rw [hpath] at h
      exact ⟨hpath, ih h⟩

theorem of_find? {text : String} {node : Node} (h : d.find? text = some (path, node))
    (hnode : node.isDirectory = true) : Walks d [] (moves text) := by
  rw [find?_eq] at h
  split at h
  · cases h
  · obtain ⟨target, hpass, hrest⟩ := Option.bind_eq_some_iff.mp h
    obtain ⟨node', hnode', hend⟩ := Option.bind_eq_some_iff.mp hrest
    refine of_foldlM hpass ?_
    split at hend
    · cases hend
    · cases hend
      simp [Disk.isDirectory, hnode', hnode]

theorem find?_join (h : Walks d [] (moves directory)) (hname : SingleName name)
    (hnul : hasNul (join directory name) = false)
    (hlong : isTooLong (join directory name) = false) :
    d.find? (join directory name) = (d.node? (destination directory ++ [name])).map
      fun node => (destination directory ++ [name], node) := by
  have hlast : ((parts (join directory name)).getLast?.map stays).getD false = false := by
    obtain ⟨before, -, hjoin⟩ := join_eq directory hname
    rw [hjoin, parts_append_slash, parts_of_no_slash hname.no_slash]
    simp [stays, hname.nonempty, hname.not_here]
  have hpass : (moves (join directory name)).foldlM (pass d) [] =
      some (destination directory ++ [name]) := by
    rw [moves_join directory hname, List.foldlM_append, h.foldlM_eq]
    have htarget : d.isDirectory (follow [] (moves directory)) = true := h.target
    simp [pass, htarget, through, hname.not_up, destination]
  rw [find?_eq, hnul, hlong, hpass, hlast]
  simp only [Bool.or_self, Bool.false_eq_true, if_false, Option.bind_some, Bool.false_and]
  cases d.node? (destination directory ++ [name]) <;> rfl

theorem makeAlong_append {dot made : Bool} (h : Walks d path way)
    (hshort : ∀ part ∈ way, part.utf8ByteSize ≤ 255) (rest : List String) :
    d.makeAlong dot made path (way ++ rest) = d.makeAlong dot made (follow path way) rest := by
  induction way generalizing path with
  | nil => rfl
  | cons part way ih =>
    have hrest := ih h.2 fun p hp => hshort p (List.mem_cons_of_mem part hp)
    rw [List.cons_append, makeAlong]
    by_cases hup : part = ".."
    · subst hup
      rw [through, if_pos rfl] at hrest
      rw [if_pos rfl, hrest, follow_up]
    · have hnext := h.2.isDirectory
      rw [through, if_neg hup] at hnext hrest
      have hpart := hshort part List.mem_cons_self
      rw [if_neg hup, if_neg (Nat.not_lt.mpr hpart)]
      obtain ⟨node, hnode, hdir⟩ := exists_of_isDirectory hnext
      simp only [hnode, if_pos hdir]
      rw [hrest, follow_down hup]

theorem makeDirectories_join (h : Walks d [] (moves directory))
    (hshort : ∀ part ∈ moves directory, part.utf8ByteSize ≤ 255) (hname : SingleName name) :
    d.makeDirectories (join directory name) =
      if hasNul (join directory name) then (.error .nulInName, d)
      else if isTooLong (join directory name) then (.error .nameTooLong, d)
      else d.makeAlong false false (destination directory) [name] := by
  have hdot : endsInDot (join directory name) = false := by
    obtain ⟨before, -, hjoin⟩ := join_eq directory hname
    rw [endsInDot, hjoin, parts_append_slash, parts_of_no_slash hname.no_slash]
    simp [hname.nonempty, hname.not_here]
  rw [makeDirectories, hdot, moves_join directory hname, h.makeAlong_append hshort]
  rfl

end Walks

theorem makeAlong_single (hname : SingleName name) :
    d.makeAlong false false path [name] =
      if 255 < name.utf8ByteSize then (.error .nameTooLong, d)
      else match d.node? (path ++ [name]) with
        | some node =>
          if node.isDirectory then (.ok (path ++ [name]), d) else (.error .fileExists, d)
        | none => (.ok (path ++ [name]), d.set (path ++ [name]) (.directory [])) := by
  simp only [makeAlong, if_neg hname.not_up]
  rfl

theorem makeDirectories_within (h : Walks d [] (moves directory))
    (hshort : ∀ part ∈ moves directory, part.utf8ByteSize ≤ 255) (hname : SingleName name) :
    Creates (destination directory ++ [name] <+: ·) d
      (d.makeDirectories (join directory name)).2 := by
  have hstep : Creates (destination directory ++ [name] <+: ·) d
      (d.makeAlong false false (destination directory) [name]).2 := by
    rw [makeAlong_single hname]
    split
    · exact .nothing
    · cases hnode : d.node? (destination directory ++ [name]) with
      | none => exact .node .nothing h.target hnode rfl rfl List.prefix_rfl
      | some node =>
        simp only
        split <;> exact .nothing
  rw [h.makeDirectories_join hshort hname]
  split
  · exact .nothing
  · split
    · exact .nothing
    · exact hstep

end Walks
end ReferralForest.Disk
