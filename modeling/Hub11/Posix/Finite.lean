import Mathlib.Data.Fintype.Basic
import Hub11.Posix.Calls

/-!
File systems given as finite tables, and checks on them that can be evaluated.

`FS.places` lists everything below a directory up to a given depth. If no directory
is left at that depth the list is complete, and statements about all paths, such as
`Forest`, become statements about the list.
-/

namespace Hub11.Posix

namespace FS

/-- The table with the given inodes; the first entry of an inode counts. Concrete disks are given
this way. -/
def ofList (nodes : List (Ino × Node)) : FS where
  node i := (nodes.find? fun e => e.1 = i).map Prod.snd
  next := nodes.foldr (fun e k => max (e.1.num + 1) k) 0
  bounded i h := by
    induction nodes with
    | nil => exact absurd rfl h
    | cons e nodes ih =>
        rw [List.foldr_cons]
        by_cases he : e.1 = i
        · subst he
          omega
        · have := ih (by simpa [List.find?_cons, he] using h)
          omega

/-- Everything at most `k` names below a directory, with its path. Each directory is listed with its
entries after it. -/
def places (fs : FS) : Nat → Ino → List (List Name × Ino)
  | 0, i => [([], i)]
  | k + 1, i => ([], i) :: ((fs.entries i).getD []).flatMap fun e =>
      ((fs.child i e.1).elim [] (fs.places k)).map fun x => (e.1 :: x.1, x.2)

theorem mem_places {fs : FS} {k : Nat} {r i : Ino} {p : List Name} (hp : p.length ≤ k)
    (h : fs.descend r p = some i) : (p, i) ∈ fs.places k r := by
  induction k generalizing r p with
  | zero =>
      obtain rfl : p = [] := List.length_eq_zero_iff.mp (Nat.le_zero.mp hp)
      cases h
      simp [places]
  | succ k ih =>
      cases p with
      | nil =>
          cases h
          simp [places]
      | cons n p =>
          obtain ⟨j, hj, hi⟩ := fs.descend_cons_eq_some h
          obtain ⟨es, he⟩ := fs.isDir_iff.mp (fs.isDir_of_child hj)
          have hn : n ∈ es.map Prod.fst := by
            by_contra hn
            rw [fs.child_of_entries he, dirGet_eq_none_iff.mpr hn] at hj
            cases hj
          obtain ⟨e, hmem, rfl⟩ := List.mem_map.mp hn
          refine List.mem_cons_of_mem _ (List.mem_flatMap.mpr ⟨e, by simpa [he] using hmem, ?_⟩)
          refine List.mem_map.mpr ⟨(p, i), ?_, rfl⟩
          rw [hj]
          exact ih (by simpa using hp) hi

/-- No directory is left at the last level of the list, so the list is complete. -/
def Shallow (fs : FS) (k : Nat) (r : Ino) : Prop :=
  ∀ x ∈ fs.places k r, x.1.length = k → fs.isDir x.2 = false

instance (fs : FS) (k : Nat) (r : Ino) : Decidable (fs.Shallow k r) :=
  inferInstanceAs (Decidable (∀ x ∈ fs.places k r, x.1.length = k → fs.isDir x.2 = false))

/-- Below a shallow directory the list is complete. -/
theorem Shallow.mem_places {fs : FS} {k : Nat} {r i : Ino} {p : List Name} (hs : fs.Shallow k r)
    (h : fs.descend r p = some i) : (p, i) ∈ fs.places k r := by
  refine FS.mem_places ?_ h
  by_contra hlong
  -- the path goes on below a directory at depth `k`
  rw [← List.take_append_drop k p, descend_append] at h
  obtain ⟨j, hj, hrest⟩ := Option.bind_eq_some_iff.mp h
  have hlen : (p.take k).length = k := by
    rw [List.length_take]
    omega
  have hfile := hs _ (FS.mem_places (Nat.le_of_eq hlen) hj) hlen
  cases hd : p.drop k with
  | nil =>
      have := congrArg List.length hd
      simp only [List.length_drop, List.length_nil] at this
      omega
  | cons n t =>
      rw [hd] at hrest
      obtain ⟨c, hc, _⟩ := fs.descend_cons_eq_some hrest
      rw [fs.isDir_of_child hc] at hfile
      cases hfile

end FS

/-- The paths of a tree are among the listed ones. -/
def View.Support (V : View) (ps : List (List Name)) : Prop := ∀ p, V p ≠ none → p ∈ ps

theorem FS.Shallow.support {fs : FS} {k : Nat} {r : Ino} (h : fs.Shallow k r) :
    (fs.view r).Support ((fs.places k r).map Prod.fst) := by
  intro p hp
  cases hd : fs.descend r p with
  | none => exact absurd (by simp [FS.view, hd]) hp
  | some i => exact List.mem_map.mpr ⟨(p, i), h.mem_places hd, rfl⟩

namespace View.Support

theorem mkdir {V : View} {ps : List (List Name)} (h : V.Support ps) (p : List Name) :
    (V.mkdir p).Support (p :: ps) := by
  intro r hr
  unfold View.mkdir at hr
  split at hr
  · by_cases hpr : p <+: r
    · obtain ⟨t, rfl⟩ := hpr
      rw [View.put_append] at hr
      cases t with
      | nil => simp
      | cons n t => exact absurd rfl hr
    · rw [V.put_of_not_below _ hpr] at hr
      exact List.mem_cons_of_mem _ (h r hr)
  · exact List.mem_cons_of_mem _ (h r hr)

theorem below {V : View} {ps : List (List Name)} (h : V.Support ps) (p : List Name) :
    (V.below p).Support (ps.map (List.drop p.length)) := by
  intro r hr
  exact List.mem_map.mpr ⟨p ++ r, h _ hr, by simp⟩

end View.Support

/-- The lists below a family of roots are complete, no directory is listed twice, and all that
is listed exists, on one device. -/
def FS.Listed {ι : Type} (fs : FS) (k dev : Nat) (root : ι → Ino) : Prop :=
  (∀ a, fs.Shallow k (root a)) ∧
    (∀ a b, ∀ x ∈ fs.places k (root a), ∀ y ∈ fs.places k (root b), x.2 = y.2 →
      fs.isDir x.2 = true → a = b ∧ x.1 = y.1) ∧
    ∀ a, ∀ x ∈ fs.places k (root a), fs.node x.2 ≠ none ∧ x.2.dev = dev

instance {ι : Type} [Fintype ι] [DecidableEq ι] (fs : FS) (k dev : Nat) (root : ι → Ino) :
    Decidable (fs.Listed k dev root) :=
  inferInstanceAs (Decidable (_ ∧ _ ∧ _))

/-- A family of shallow roots is a forest if its listed places say so. -/
theorem Forest.of_places {ι : Type} {fs : FS} {k dev : Nat} {root : ι → Ino}
    (h : fs.Listed k dev root) : Forest fs dev root where
  inj hp hq hdir :=
    h.2.1 _ _ _ ((h.1 _).mem_places hp) _ ((h.1 _).mem_places hq) rfl hdir
  live hp := (h.2.2 _ _ ((h.1 _).mem_places hp)).1
  onDev hp := (h.2.2 _ _ ((h.1 _).mem_places hp)).2

/-- Do all links of a directory avoid directories? This decides `World.LinkAvoidsDirs` for every
name at once. -/
def World.linksChecked (env : Env) (w : World) (i : Ino) : Bool :=
  ((w.fs.entries i).getD []).all fun e =>
    match w.fs.child i e.1 with
    | some j =>
        match w.fs.node j, w.fs.lookup (w.space env) i [.name e.1] with
        | some (.symlink _), .found l => !w.fs.isDir l
        | _, _ => true
    | none => true

theorem World.linkAvoidsDirs_of_checked {env : Env} {w : World} {i : Ino}
    (h : w.linksChecked env i = true) (n : Name) : w.LinkAvoidsDirs env i n := by
  intro j t hj ht l hl
  obtain ⟨es, he⟩ := w.fs.isDir_iff.mp (w.fs.isDir_of_child hj)
  have hn : n ∈ es.map Prod.fst := by
    by_contra hn
    rw [w.fs.child_of_entries he, dirGet_eq_none_iff.mpr hn] at hj
    cases hj
  obtain ⟨e, hmem, rfl⟩ := List.mem_map.mp hn
  have := List.all_eq_true.mp h e (by simpa [he] using hmem)
  simpa [hj, ht, hl] using this

end Hub11.Posix
