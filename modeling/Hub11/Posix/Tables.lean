import Hub11.Posix.FileSystem

/-!
How the operations change the inode table: for every update, the entries of each
directory and the kind of each inode afterwards. Later proofs use these equations
and never unfold an operation.
-/

namespace Hub11.Posix

/-! ### Directory contents -/

theorem dirGet_nil (n : Name) : dirGet [] n = none := rfl

theorem dirGet_cons (e : Name × Ino) (es : List (Name × Ino)) (n : Name) :
    dirGet (e :: es) n = if e.1 = n then some e.2 else dirGet es n := by
  unfold dirGet
  by_cases h : e.1 = n <;> simp [h]

theorem dirGet_del (es : List (Name × Ino)) (n m : Name) :
    dirGet (dirDel es n) m = if m = n then none else dirGet es m := by
  induction es with
  | nil => simp [dirDel, dirGet_nil]
  | cons e es ih =>
      unfold dirDel at ih ⊢
      by_cases h : e.1 = n
      · rw [List.filter_cons_of_neg (by simpa using h), ih, dirGet_cons]
        by_cases hm : m = n
        · simp [hm]
        · have : e.1 ≠ m := fun hem => hm (hem ▸ h)
          simp [hm, this]
      · rw [List.filter_cons_of_pos (by simpa using h), dirGet_cons, dirGet_cons, ih]
        by_cases hm : m = n
        · subst hm
          simp [h]
        · simp [hm]

theorem dirGet_set (es : List (Name × Ino)) (n m : Name) (i : Ino) :
    dirGet (dirSet es n i) m = if m = n then some i else dirGet es m := by
  unfold dirSet
  rw [dirGet_cons, dirGet_del]
  by_cases h : m = n
  · simp [h]
  · simp [h, Ne.symm h]

theorem dirGet_eq_none_iff {es : List (Name × Ino)} {n : Name} :
    dirGet es n = none ↔ n ∉ es.map Prod.fst := by
  induction es with
  | nil => simp [dirGet_nil]
  | cons e es ih =>
      rw [dirGet_cons]
      by_cases h : e.1 = n
      · simp [h]
      · simp only [h, if_false, ih, List.map_cons, List.mem_cons, not_or]
        exact ⟨fun hn => ⟨Ne.symm h, hn⟩, fun hn => hn.2⟩

theorem dirGet_all_none_iff {es : List (Name × Ino)} : (∀ n, dirGet es n = none) ↔ es = [] := by
  constructor
  · intro h
    cases es with
    | nil => rfl
    | cons e es =>
        have := h e.1
        simp [dirGet_cons] at this
  · rintro rfl n
    rfl

theorem dirDel_length_le (es : List (Name × Ino)) (n : Name) :
    (dirDel es n).length ≤ es.length :=
  List.length_filter_le _ _

/-! ### Kinds -/

/-- What a path leads to: a directory, or a file or link identified by its inode. A file that is
moved keeps its identity. -/
inductive Obj where
  | dir
  | leaf (i : Ino)
deriving DecidableEq

namespace FS

variable (fs : FS)

/-- What an inode is, for somebody who only walks over the tree. -/
def obj (i : Ino) : Option Obj :=
  match fs.node i with
  | none => none
  | some (.dir _ _) => some .dir
  | some _ => some (.leaf i)

theorem obj_eq_none_iff {i : Ino} : fs.obj i = none ↔ fs.node i = none := by
  unfold obj
  split <;> simp_all

theorem obj_eq_dir_iff {i : Ino} : fs.obj i = some .dir ↔ fs.isDir i = true := by
  unfold obj isDir entries
  cases h : fs.node i with
  | none => simp
  | some n => cases n <;> simp

theorem isDir_iff {i : Ino} : fs.isDir i = true ↔ ∃ es, fs.entries i = some es := by
  unfold isDir
  exact Option.isSome_iff_exists

theorem isEmptyDir_iff {i : Ino} : fs.isEmptyDir i = true ↔ fs.entries i = some [] := by
  simp [isEmptyDir]

theorem child_of_entries {d : Ino} {es : List (Name × Ino)} (h : fs.entries d = some es)
    (n : Name) : fs.child d n = dirGet es n := by
  simp [child, h]

theorem isDir_of_child {d : Ino} {n : Name} {i : Ino} (h : fs.child d n = some i) :
    fs.isDir d = true := by
  unfold child at h
  cases he : fs.entries d with
  | none => simp [he] at h
  | some es => exact fs.isDir_iff.mpr ⟨es, he⟩

theorem entries_eq_none_of_leaf {i j : Ino} (h : fs.obj i = some (.leaf j)) :
    fs.entries i = none := by
  cases he : fs.entries i with
  | none => rfl
  | some es =>
      have := fs.obj_eq_dir_iff.mpr (fs.isDir_iff.mpr ⟨es, he⟩)
      rw [h] at this
      cases this

theorem obj_leaf_eq {i j : Ino} (h : fs.obj i = some (.leaf j)) : j = i := by
  unfold obj at h
  split at h <;> simp_all

/-- An inode in use is a directory, or a leaf named by its own number. -/
theorem obj_cases {i : Ino} (h : fs.node i ≠ none) :
    fs.obj i = some .dir ∨ fs.obj i = some (.leaf i) := by
  unfold obj
  split <;> simp_all

theorem fresh_node (dev : Nat) : fs.node (fs.fresh dev) = none := by
  by_contra h
  exact absurd (fs.bounded _ h) (Nat.lt_irrefl _)

theorem ne_fresh_of_node {i : Ino} (h : fs.node i ≠ none) (dev : Nat) : i ≠ fs.fresh dev := by
  rintro rfl
  exact h (fs.fresh_node dev)

/-! ### Updates -/

theorem node_modify (i : Ino) (f : Node → Option Node) (j : Ino) :
    (fs.modify i f).node j = if j = i then (fs.node i).bind f else fs.node j := rfl

theorem node_alloc (dev : Nat) (n : Node) (j : Ino) :
    (fs.alloc dev n).node j = if j = fs.fresh dev then some n else fs.node j := rfl

section

variable (d i p j : Ino) (n : Name) (data : Bytes)

theorem entries_setEntry :
    (fs.setEntry d n i).entries j =
      if j = d then (fs.entries d).map (dirSet · n i) else fs.entries j := by
  unfold setEntry entries
  rw [node_modify]
  by_cases h : j = d
  · subst h
    cases hn : fs.node j with
    | none => simp
    | some x => cases x <;> simp
  · simp [h]

theorem entries_delEntry :
    (fs.delEntry d n).entries j =
      if j = d then (fs.entries d).map (dirDel · n) else fs.entries j := by
  unfold delEntry entries
  rw [node_modify]
  by_cases h : j = d
  · subst h
    cases hn : fs.node j with
    | none => simp
    | some x => cases x <;> simp
  · simp [h]

theorem entries_setParent : (fs.setParent i p).entries j = fs.entries j := by
  unfold setParent entries
  rw [node_modify]
  by_cases h : j = i
  · subst h
    cases hn : fs.node j with
    | none => simp
    | some x => cases x <;> simp
  · simp [h]

theorem entries_setData : (fs.setData i data).entries j = fs.entries j := by
  unfold setData entries
  rw [node_modify]
  by_cases h : j = i
  · subst h
    cases hn : fs.node j with
    | none => simp
    | some x => cases x <;> simp
  · simp [h]

theorem entries_drop : (fs.drop i).entries j = if j = i then none else fs.entries j := by
  unfold drop entries
  rw [node_modify]
  by_cases h : j = i
  · subst h
    cases hn : fs.node j <;> simp
  · simp [h]

theorem obj_setEntry : (fs.setEntry d n i).obj j = fs.obj j := by
  unfold setEntry obj
  rw [node_modify]
  by_cases h : j = d
  · subst h
    cases hn : fs.node j with
    | none => simp
    | some x => cases x <;> simp
  · simp [h]

theorem obj_delEntry : (fs.delEntry d n).obj j = fs.obj j := by
  unfold delEntry obj
  rw [node_modify]
  by_cases h : j = d
  · subst h
    cases hn : fs.node j with
    | none => simp
    | some x => cases x <;> simp
  · simp [h]

theorem obj_setParent : (fs.setParent i p).obj j = fs.obj j := by
  unfold setParent obj
  rw [node_modify]
  by_cases h : j = i
  · subst h
    cases hn : fs.node j with
    | none => simp
    | some x => cases x <;> simp
  · simp [h]

theorem obj_setData : (fs.setData i data).obj j = fs.obj j := by
  unfold setData obj
  rw [node_modify]
  by_cases h : j = i
  · subst h
    cases hn : fs.node j with
    | none => simp
    | some x => cases x <;> simp
  · simp [h]

theorem obj_drop : (fs.drop i).obj j = if j = i then none else fs.obj j := by
  unfold drop obj
  rw [node_modify]
  by_cases h : j = i
  · subst h
    cases hn : fs.node j <;> simp
  · simp [h]

theorem node_setEntry_of_ne (h : j ≠ d) : (fs.setEntry d n i).node j = fs.node j := by
  simp [setEntry, node_modify, h]

theorem node_delEntry_of_ne (h : j ≠ d) : (fs.delEntry d n).node j = fs.node j := by
  simp [delEntry, node_modify, h]

theorem node_setParent_of_ne (h : j ≠ i) : (fs.setParent i p).node j = fs.node j := by
  simp [setParent, node_modify, h]

theorem node_setData_of_ne (h : j ≠ i) : (fs.setData i data).node j = fs.node j := by
  simp [setData, node_modify, h]

theorem node_setData_self {old : Bytes} (h : fs.node i = some (.file old)) :
    (fs.setData i data).node i = some (.file data) := by
  simp [setData, node_modify, h]

/-- Writing the bytes a file has changes nothing. -/
theorem setData_self (h : fs.node i = some (.file data)) : fs.setData i data = fs := by
  ext j x
  · by_cases hj : j = i
    · rw [hj, fs.node_setData_self i data h, h]
    · rw [fs.node_setData_of_ne i j data hj]
  · rfl

theorem setData_setData (later : Bytes) :
    (fs.setData i data).setData i later = fs.setData i later := by
  ext j x
  · by_cases hj : j = i
    · subst hj
      simp only [setData, node_modify, if_true]
      cases hn : fs.node j with
      | none => simp
      | some x => cases x <;> simp
    · rw [node_setData_of_ne _ i j _ hj, node_setData_of_ne _ i j _ hj, node_setData_of_ne _ i j _ hj]
  · rfl

theorem node_drop_of_ne (h : j ≠ i) : (fs.drop i).node j = fs.node j := by
  simp [drop, node_modify, h]

end

/-- A node that is no directory is not touched by an update of directory entries. -/
theorem node_setParent_of_leaf {i p : Ino} (h : fs.isDir i = false) (j : Ino) :
    (fs.setParent i p).node j = fs.node j := by
  unfold setParent
  rw [node_modify]
  by_cases hj : j = i
  · subst hj
    unfold isDir entries at h
    cases hn : fs.node j with
    | none => simp
    | some x => cases x <;> simp_all
  · simp [hj]

end FS

end Hub11.Posix
