import Netstore.Bytes

/-!
# Paths

A path is read component by component from a directory, itself the list of names that
leads to it from the root : an empty component and `.` stay, `..` goes up, any other
name goes down. Links are not followed. `resolve_append` is what a program relies on
that appends a name to the path of its folder : the result is the entry of that name
in the folder, if it is a name (`IsName`).
-/

namespace Netstore

namespace Path

/-- The byte that separates components. -/
def slash : UInt8 := 47

/-- The folder itself. -/
def dot : Bytes := [46]
/-- The parent folder. -/
def dotDot : Bytes := [46, 46]

/-- A string that can be the name of an entry. -/
def IsName (name : Bytes) : Prop :=
  name ≠ [] ∧ slash ∉ name ∧ name ≠ dot ∧ name ≠ dotDot

instance (name : Bytes) : Decidable (IsName name) :=
  inferInstanceAs (Decidable (_ ∧ _))

/-- Where a component leads from a directory. -/
def walk (dir : List Bytes) (component : Bytes) : List Bytes :=
  if component = [] ∨ component = dot then dir
  else if component = dotDot then dir.dropLast
  else dir ++ [component]

/-- Where a path leads from the working directory `cwd`. -/
def resolve (cwd : List Bytes) (path : Bytes) : List Bytes :=
  (path.splitOn slash).foldl walk (if path.head? = some slash then [] else cwd)

variable {cwd dir : List Bytes} {folder name : Bytes}

theorem walk_of_isName (h : IsName name) : walk dir name = dir ++ [name] := by
  rw [walk, if_neg (not_or.mpr ⟨h.1, h.2.2.1⟩), if_neg h.2.2.2]

/-- A last component is read from where the rest of the path leads. -/
theorem resolve_append_of_not_mem (h : slash ∉ name) :
    resolve cwd (folder ++ slash :: name) = walk (resolve cwd (folder ++ [slash])) name := by
  have hhead : (folder ++ slash :: name).head? = (folder ++ [slash]).head? := by
    cases folder <;> rfl
  have hnil : ∀ d, walk d [] = d := fun d => if_pos (Or.inl rfl)
  rw [resolve, resolve, hhead, List.splitOn_append_cons_self, List.splitOn_append_cons_self,
    List.splitOn_eq_singleton h, List.splitOn_nil, List.foldl_append, List.foldl_append]
  simp only [List.foldl_cons, List.foldl_nil, hnil]

/-- A name appended to the path of a folder leads to the entry directly inside it. -/
theorem resolve_append (h : IsName name) :
    resolve cwd (folder ++ slash :: name) = resolve cwd (folder ++ [slash]) ++ [name] := by
  rw [resolve_append_of_not_mem h.2.1, walk_of_isName h]

end Path

end Netstore
