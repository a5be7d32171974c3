import Hub11.Posix.Paths
import Hub11.Recovery.Merge

/-!
The mounted root file system as `_start` works on it.

`Rootfs env V w` says that the disk is mounted on `/mnt` and that its tree is `V`, and
`Since env w w'` that between two states no file or link was written to and the ram disk
was left alone. Each call of `_start` on a path below
`/mnt` is given as a step from one such state to the next, so that the phases of
`_start` become functions on `V`.
-/

namespace Hub11.Recovery

open Hub11.Effect Hub11.Posix

/-- Files and links keep their contents. -/
def LeavesKept (fs fs' : FS) : Prop :=
  ∀ i, fs.node i ≠ none → fs.isDir i = false → fs'.node i = fs.node i

theorem LeavesKept.refl (fs : FS) : LeavesKept fs fs := fun _ _ _ => rfl

theorem LeavesKept.trans {fs fs' fs'' : FS} (h : LeavesKept fs fs') (h' : LeavesKept fs' fs'') :
    LeavesKept fs fs'' := by
  intro i hi hdir
  have hsame := h i hi hdir
  rw [← hsame]
  apply h' i
  · rw [hsame]
    exact hi
  · simpa [FS.isDir, FS.entries, hsame] using hdir

/-- The disk is mounted on the directory `/mnt` of another device, and `/mnt` is an entry of the
root of the ram disk. -/
structure Mounted (env : Env) (w : World) : Prop where
  point : ∃ mnt, w.fs.child env.ramRoot nMnt = some mnt ∧ w.fs.isDir mnt = true ∧
    w.mount = some (mnt, env.diskRoot) ∧ mnt.dev ≠ env.diskRoot.dev
  ram : env.ramRoot.dev ≠ env.diskRoot.dev

/-- The root of the disk as the one root of a forest. -/
def diskTop (env : Env) : Unit → Ino := fun _ => env.diskRoot

/-- The disk is mounted, it is a tree, and `V` is that tree. The phases of `_start` are functions on
`V` as long as this holds. -/
structure Rootfs (env : Env) (V : View) (w : World) : Prop where
  mounted : Mounted env w
  forest : Forest w.fs env.diskRoot.dev (diskTop env)
  view : w.fs.view env.diskRoot = V
  root : V [] = some .dir
  bound : ∀ k, w.nextFd ≤ k → w.fds k = none

/-- What all phases of `_start` leave alone: the contents of files and links, the ram disk, and the
numbers that are in use. -/
structure Since (env : Env) (w w' : World) : Prop where
  leaves : LeavesKept w.fs w'.fs
  ramdisk : ∀ n, w'.fs.child env.ramRoot n = w.fs.child env.ramRoot n
  nextFd : w.nextFd ≤ w'.nextFd
  next : w.fs.next ≤ w'.fs.next

theorem Since.trans {env : Env} {w w' w'' : World} (h : Since env w w') (h' : Since env w' w'') :
    Since env w w'' where
  leaves := h.leaves.trans h'.leaves
  ramdisk n := (h'.ramdisk n).trans (h.ramdisk n)
  nextFd := Nat.le_trans h.nextFd h'.nextFd
  next := Nat.le_trans h.next h'.next

/-- Steps from `w` to a state with tree `V'` that close what they open. Such steps can be put one
after the other. -/
structure Leads (env : Env) (w : World) (V' : View) (w' : World) : Prop where
  rootfs : Rootfs env V' w'
  since : Since env w w'
  balanced : Balanced env w w'

theorem Leads.trans {env : Env} {w w' w'' : World} {V V' : View} (h : Leads env w V w')
    (h' : Leads env w' V' w'') : Leads env w V' w'' where
  rootfs := h'.rootfs
  since := h.since.trans h'.since
  balanced := h.balanced.trans h'.balanced h.since.nextFd

section Paths

variable {env : Env} {w w' : World} {V : View}

theorem Mounted.lookup (h : Mounted env w) (cs : List Comp) :
    w.fs.lookup (w.space env) env.ramRoot (.name nMnt :: cs) =
      w.fs.lookup (w.space env) env.diskRoot cs := by
  obtain ⟨mnt, hc, hdir, hmount, _⟩ := h.point
  rw [FS.lookup_cons_of_child hc (FS.not_symlink_of_isDir hdir)]
  simp [World.space, Space.cross, hmount]

theorem Mounted.resolveParent (h : Mounted env w) (n : Name) :
    w.resolveParent env AT_FDCWD (mntPath [n]) = .ok (env.diskRoot, n) := by
  change w.fs.lookupParent (w.space env) env.ramRoot ([.name nMnt] ++ [.name n]) = _
  rw [FS.lookupParent_append, h.lookup]
  rfl

/-- Nothing on the disk is a mount point. -/
theorem Mounted.cross (h : Mounted env w) {i : Ino} (hi : i.dev = env.diskRoot.dev) :
    (w.space env).cross i = i := by
  obtain ⟨mnt, _, _, hmount, hdev⟩ := h.point
  have hne : i ≠ mnt := by
    rintro rfl
    exact hdev hi
  simp [World.space, Space.cross, hmount, hne]

theorem Mounted.not_busy (h : Mounted env w) {i : Ino} (hi : (w.space env).busy = some i) :
    i.dev ≠ env.diskRoot.dev := by
  obtain ⟨mnt, _, _, hmount, hdev⟩ := h.point
  simp only [World.space, Space.busy, hmount, Option.map_some, Option.some.injEq] at hi
  exact hi ▸ hdev

/-- A directory that is still there after entries were removed is the same one. -/
theorem Rootfs.place_of_shrinks (R' : Rootfs env V w') (h : Shrinks w.fs w'.fs env.diskRoot)
    {p : List Name} {k : Ino} (place : Place w.fs (diskTop env) () p k) (hp : V p = some .dir) :
    Place w'.fs (diskTop env) () p k := by
  rw [← R'.view] at hp
  obtain ⟨j, hj, hdir⟩ := Option.bind_eq_some_iff.mp hp
  have hjk : j = k := by
    have hj' := (h p j hj).1
    rw [show w.fs.descend env.diskRoot p = some k from place.at_path] at hj'
    exact (Option.some.inj hj').symm
  subst hjk
  exact ⟨hj, w'.fs.obj_eq_dir_iff.mp hdir⟩

/-- A directory of the tree is at a place. -/
theorem Rootfs.place (R : Rootfs env V w) {p : List Name} (hp : V p = some .dir) :
    ∃ k, Place w.fs (diskTop env) () p k := by
  rw [← R.view] at hp
  obtain ⟨k, hk, hdir⟩ := Option.bind_eq_some_iff.mp hp
  exact ⟨k, hk, w.fs.obj_eq_dir_iff.mp hdir⟩

theorem Rootfs.lookup (R : Rootfs env V w) {p : List Name} {k : Ino}
    (place : Place w.fs (diskTop env) () p k) (cs : List Comp) :
    w.fs.lookup (w.space env) env.diskRoot (p.map .name ++ cs) =
      w.fs.lookup (w.space env) k cs :=
  FS.lookup_descend (fun _ _ hq => R.mounted.cross (R.forest.onDev (a := ()) hq)) place.at_path
    place.isDir cs

theorem Rootfs.resolve (R : Rootfs env V w) {p : List Name} {k : Ino}
    (place : Place w.fs (diskTop env) () p k) (q : List Name) :
    w.resolve env AT_FDCWD (mntPath (p ++ q)) = w.fs.lookup (w.space env) k (q.map .name) := by
  change w.fs.lookup (w.space env) env.ramRoot ((nMnt :: (p ++ q)).map .name) = _
  rw [List.map_cons, R.mounted.lookup, List.map_append, R.lookup place]

theorem Rootfs.resolveParent (R : Rootfs env V w) {p : List Name} {k : Ino}
    (place : Place w.fs (diskTop env) () p k) (n : Name) :
    w.resolveParent env AT_FDCWD (mntPath (p ++ [n])) = .ok (k, n) := by
  change w.fs.lookupParent (w.space env) env.ramRoot ((nMnt :: (p ++ [n])).map .name) = _
  rw [List.map_cons, List.map_append, List.map_singleton, ← List.cons_append,
    FS.lookupParent_append, R.mounted.lookup, ← List.append_nil (p.map _), R.lookup place]
  rfl

end Paths

/-! ### Steps -/

section Steps

variable {env : Env} {w w' : World} {V V' : View} {fs' : FS}

/-- A step that leaves the file system alone. -/
theorem Rootfs.same (R : Rootfs env V w) (hfs : w'.fs = w.fs) (hmount : w'.mount = w.mount)
    (hnext : w.nextFd ≤ w'.nextFd) (hbound : ∀ k, w'.nextFd ≤ k → w'.fds k = none) :
    Rootfs env V w' ∧ Since env w w' := by
  constructor
  · refine ⟨⟨?_, R.mounted.ram⟩, hfs ▸ R.forest, hfs ▸ R.view, R.root, hbound⟩
    rw [hfs, hmount]
    exact R.mounted.point
  · refine ⟨?_, fun n => by rw [hfs], hnext, by rw [hfs]⟩
    rw [hfs]
    exact LeavesKept.refl _

theorem Rootfs.quiet (R : Rootfs env V w) (h : Quiet w w') : Leads env w V w' := by
  have hnext := Nat.le_of_eq h.nextFd.symm
  obtain ⟨R', since⟩ := R.same h.fs h.mount hnext (by rw [h.fds, h.nextFd]; exact R.bound)
  exact ⟨R', since, Balanced.of_eq env h.fds hnext R.bound⟩

/-- What is not on the disk is not in the tree. -/
theorem Rootfs.node_eq (R : Rootfs env V w) (W : Within w.fs fs' (diskTop env)) {k : Ino}
    (hk : w.fs.node k ≠ none) (hdev : k.dev ≠ env.diskRoot.dev) : fs'.node k = w.fs.node k :=
  W.frame hk fun _ _ hp => absurd (R.forest.onDev hp) hdev

/-- A step that changes directories of the tree only: the disk stays a mounted tree, with the new
view. -/
theorem Rootfs.step (R : Rootfs env V w) (F : Forest w'.fs env.diskRoot.dev (diskTop env))
    (W : Within w.fs w'.fs (diskTop env)) (hV : w'.fs.view env.diskRoot = V')
    (hroot : V' [] = some .dir) (hmount : w'.mount = w.mount) (hnext : w.nextFd ≤ w'.nextFd)
    (hbound : ∀ k, w'.nextFd ≤ k → w'.fds k = none) : Rootfs env V' w' ∧ Since env w w' := by
  obtain ⟨mnt, hc, hdir, hpoint, hdev⟩ := R.mounted.point
  have hram : w'.fs.node env.ramRoot = w.fs.node env.ramRoot := by
    apply R.node_eq W _ R.mounted.ram
    intro hnone
    simp [FS.child, FS.entries, hnone] at hc
  have hchild : ∀ n, w'.fs.child env.ramRoot n = w.fs.child env.ramRoot n := fun n => by
    simp [FS.child, FS.entries, hram]
  have hmnt : w'.fs.isDir mnt = true := by
    rw [Within.isDir_eq (R.node_eq W _ hdev)]
    · exact hdir
    · intro hnone
      simp [FS.isDir, FS.entries, hnone] at hdir
  constructor
  · refine ⟨⟨⟨mnt, ?_, hmnt, ?_, hdev⟩, R.mounted.ram⟩, F, hV, hroot, hbound⟩
    · rw [hchild]
      exact hc
    · rw [hmount]
      exact hpoint
  · exact ⟨fun i hi hleaf => W.frame hi fun _ _ _ => hleaf, hchild, hnext, W.next⟩

theorem Rootfs.changed (R : Rootfs env V w) (ch : Changed w w' fs')
    (F : Forest fs' env.diskRoot.dev (diskTop env)) (W : Within w.fs fs' (diskTop env))
    (hV : fs'.view env.diskRoot = V') (hroot : V' [] = some .dir) : Leads env w V' w' := by
  have hnext := Nat.le_of_eq ch.nextFd.symm
  have balanced := Balanced.of_eq env ch.fds hnext R.bound
  obtain ⟨R', since⟩ := R.step (ch.fs ▸ F) (ch.fs ▸ W) (ch.fs ▸ hV) hroot ch.mount hnext
    balanced.bound
  exact ⟨R', since, balanced⟩

/-- What a name of a directory holds, seen from the root. -/
theorem Rootfs.view_child (R : Rootfs env V w) {p : List Name} {k : Ino}
    (place : Place w.fs (diskTop env) () p k) (n : Name) :
    V (p ++ [n]) = (w.fs.child k n).bind w.fs.obj := by
  rw [← R.view]
  unfold FS.view
  rw [FS.descend_append, show w.fs.descend env.diskRoot p = some k from place.at_path]
  cases hc : w.fs.child k n with
  | none => simp [FS.descend_cons, hc]
  | some i => simp [FS.descend_cons, hc]

/-- Removing the entry `n`, with the empty directory it names if `gone`. The view has nothing there
afterwards. -/
theorem Rootfs.removed (R : Rootfs env V w) {p : List Name} {k i : Ino} {n : Name} (gone : Bool)
    (place : Place w.fs (diskTop env) () p k)
    (hi : w.fs.child k n = some i)
    (hgone : gone = true → w.fs.isEmptyDir i = true)
    (ch : Changed w w' (w.fs.remove k n i gone)) :
    Leads env w (V.put (p ++ [n]) View.empty) w' := by
  apply R.changed ch (R.forest.remove_forest place hi hgone) (R.forest.remove_within place hi hgone)
  · rw [← R.view]
    exact (R.forest.remove_view place hi hgone).1
  · rw [View.put_nil_of_ne _ (by simp)]
    exact R.root

/-- The tree below a name, seen from the root. -/
theorem Rootfs.below_child (R : Rootfs env V w) {p : List Name} {k i : Ino} {n : Name}
    (place : Place w.fs (diskTop env) () p k) (hi : w.fs.child k n = some i) :
    w.fs.descend env.diskRoot (p ++ [n]) = some i ∧ V.below (p ++ [n]) = w.fs.view i := by
  have hdesc : w.fs.descend env.diskRoot (p ++ [n]) = some i := by
    rw [FS.descend_append, show w.fs.descend env.diskRoot p = some k from place.at_path]
    simp [FS.descend_cons, hi]
  refine ⟨hdesc, ?_⟩
  rw [← R.view]
  funext q
  unfold View.below FS.view
  rw [FS.descend_append, hdesc]
  rfl

section Calls

variable (hno : env.choices.NoFaults) (R : Rootfs env V w) {p : List Name} (hp : V p = some .dir)
  (n : Name)
include hno R hp

/-- Creating an entry goes through exactly where there is nothing, for directories, files and links
alike. -/
theorem Rootfs.create (node : Ino → Node) (hbare : ∀ k, (node k).Bare) {ret : Int}
    (tried : ∀ k, Place w.fs (diskTop env) () p k →
      Tried env w w' ret (w.fs.create k n (node k))) :
    (V (p ++ [n]) ≠ none → Quiet w w') ∧
    (V (p ++ [n]) = none → ∃ k i, Leads env w (V.put (p ++ [n]) (View.one ((node k).obj i))) w' ∧
      w.fs.next ≤ i.num ∧ w'.fs.node i = some (node k)) := by
  obtain ⟨k, place⟩ := R.place hp
  have hview := R.view_child place n
  have tried := tried k place
  unfold FS.create at tried
  rw [if_pos place.isDir] at tried
  cases hc : w.fs.child k n with
  | some j =>
      rw [hc] at tried hview
      have hlive := R.forest.live (a := ()) (R.below_child place hc).1
      constructor
      · intro _
        rcases tried with ⟨_, fs', hok, _⟩ | ⟨_, hquiet, _⟩
        · cases hok
        · exact hquiet
      · intro hnone
        rw [hnone, Option.bind_some, eq_comm, FS.obj_eq_none_iff] at hview
        exact absurd hview hlive
  | none =>
      rw [hc] at tried hview
      constructor
      · intro hne
        exact absurd hview hne
      · intro _
        rcases tried with ⟨_, fs', hok, hch⟩ | ⟨_, _, herr⟩
        · cases hok
          refine ⟨k, w.fs.fresh k.dev, ?_, Nat.le_refl _, ?_⟩
          · apply R.changed hch (R.forest.link_forest place (hbare k))
              (R.forest.link_within place (hbare k))
            · rw [← R.view]
              exact (R.forest.link_view place (hbare k)).1
            · rw [View.put_nil_of_ne _ (by simp)]
              exact R.root
          · rw [hch.fs]
            exact FS.node_link_fresh (R.forest.live place.at_path)
        · obtain ⟨e, he⟩ := herr hno
          cases he

theorem Rootfs.mkdirat :
    Leads env w (V.mkdir (p ++ [n])) (kernel env w (.mkdirat AT_FDCWD (mntPath (p ++ [n])))).1 := by
  have hcases := R.create hno hp n (fun k => .dir k []) (fun _ => rfl)
    fun k place => kernel_mkdirat_of env (R.resolveParent place n)
  unfold View.mkdir
  split
  · rename_i hnone
    obtain ⟨k, i, hleads, _⟩ := hcases.2 hnone
    exact hleads
  · rename_i hne
    exact R.quiet (hcases.1 hne)

theorem Rootfs.symlinkat (target : Path) :
    (V (p ++ [n]) ≠ none →
      Quiet w (kernel env w (.symlinkat target AT_FDCWD (mntPath (p ++ [n])))).1) ∧
    (V (p ++ [n]) = none → ∃ i,
      Leads env w (V.put (p ++ [n]) (View.one (.leaf i)))
        (kernel env w (.symlinkat target AT_FDCWD (mntPath (p ++ [n])))).1 ∧
      w.fs.next ≤ i.num ∧
      (kernel env w (.symlinkat target AT_FDCWD (mntPath (p ++ [n])))).1.fs.node i =
        some (.symlink target)) := by
  have hcases := R.create hno hp n (fun _ => .symlink target) (fun _ => trivial)
    fun k place => kernel_symlinkat_of env (R.resolveParent place n) target
  refine ⟨hcases.1, fun hnone => ?_⟩
  obtain ⟨_, i, hleads, hfresh, hnode⟩ := hcases.2 hnone
  exact ⟨i, hleads, hfresh, hnode⟩

theorem Rootfs.unlinkat :
    Leads env w (V.unlink (p ++ [n]))
      (kernel env w (.unlinkat AT_FDCWD (mntPath (p ++ [n])) false)).1 := by
  obtain ⟨k, place⟩ := R.place hp
  have hview := R.view_child place n
  have tried := kernel_unlinkat_of env (R.resolveParent place n) false
  simp only [Bool.false_eq_true, if_false, FS.unlink] at tried
  cases hc : w.fs.child k n with
  | none =>
      rw [hc] at tried hview
      have hsame : V.unlink (p ++ [n]) = V := by simp [View.unlink, hview]
      rw [hsame]
      rcases tried with ⟨_, fs', hok, _⟩ | ⟨_, hquiet, _⟩
      · cases hok
      · exact R.quiet hquiet
  | some i =>
      rw [hc] at tried hview
      by_cases hdir : w.fs.isDir i = true
      · rw [Option.bind_some, w.fs.obj_eq_dir_iff.mpr hdir] at hview
        have hsame : V.unlink (p ++ [n]) = V := by simp [View.unlink, hview]
        rw [hsame]
        rcases tried with ⟨_, fs', hok, _⟩ | ⟨_, hquiet, _⟩
        · simp [hdir] at hok
        · exact R.quiet hquiet
      · have hleaf : w.fs.obj i = some (.leaf i) := by
          rcases w.fs.obj_cases (R.forest.live (a := ()) (R.below_child place hc).1) with h | h
          · exact absurd (w.fs.obj_eq_dir_iff.mp h) hdir
          · exact h
        rw [Option.bind_some, hleaf] at hview
        have hput : V.unlink (p ++ [n]) = V.put (p ++ [n]) View.empty := by
          simp [View.unlink, hview]
        rw [hput]
        rcases tried with ⟨_, fs', hok, hch⟩ | ⟨_, _, herr⟩
        · simp only [hdir, Bool.false_eq_true, if_false, Except.ok.injEq] at hok
          subst hok
          exact R.removed false place hc (by simp) hch
        · obtain ⟨e, he⟩ := herr hno
          simp [hdir] at he

/-- `rmdir` of a path of the tree, as a function of the view. -/
theorem Rootfs.rmdirat :
    Leads env w (V.rmdir (p ++ [n]))
      (kernel env w (.unlinkat AT_FDCWD (mntPath (p ++ [n])) true)).1 ∧
    Shrinks w.fs (kernel env w (.unlinkat AT_FDCWD (mntPath (p ++ [n])) true)).1.fs
      env.diskRoot := by
  have quiet : ∀ {w'}, Quiet w w' → Leads env w V w' ∧ Shrinks w.fs w'.fs env.diskRoot := by
    intro w' h
    refine ⟨R.quiet h, ?_⟩
    rw [h.fs]
    exact Shrinks.refl _ _
  obtain ⟨k, place⟩ := R.place hp
  have hview := R.view_child place n
  have tried := kernel_unlinkat_of env (R.resolveParent place n) true
  simp only [if_true, FS.rmdir] at tried
  unfold View.rmdir
  cases hc : w.fs.child k n with
  | none =>
      rw [hc] at tried hview
      rw [if_neg]
      · rcases tried with ⟨_, fs', hok, _⟩ | ⟨_, hquiet, _⟩
        · cases hok
        · exact quiet hquiet
      · intro hone
        have := congrFun hone []
        simp [View.below, hview] at this
  | some i =>
      obtain ⟨hdesc, hbelow⟩ := R.below_child place hc
      rw [hc] at tried
      rw [hbelow]
      have hbusy : (w.space env).busy ≠ some i := fun h =>
        R.mounted.not_busy h (R.forest.onDev (a := ()) hdesc)
      by_cases hempty : w.fs.isEmptyDir i = true
      · have hdir : w.fs.isDir i = true :=
          w.fs.isDir_iff.mpr ⟨_, w.fs.isEmptyDir_iff.mp hempty⟩
        rw [if_pos (view_eq_one hempty)]
        rcases tried with ⟨_, fs', hok, hch⟩ | ⟨_, _, herr⟩
        · simp only [hdir, hbusy, hempty, Bool.not_true, Bool.false_eq_true, if_false, if_true,
            Except.ok.injEq] at hok
          subst hok
          refine ⟨R.removed true place hc (fun _ => hempty) hch, ?_⟩
          rw [hch.fs]
          exact R.forest.remove_shrinks place hc (fun _ : true = true => hempty) ()
        · obtain ⟨e, he⟩ := herr hno
          simp [hdir, hbusy, hempty] at he
      · rw [if_neg]
        · rcases tried with ⟨_, fs', hok, _⟩ | ⟨_, hquiet, _⟩
          · by_cases hdir : w.fs.isDir i = true <;> simp [hdir, hbusy, hempty] at hok
          · exact quiet hquiet
        · exact fun hone => hempty (isEmptyDir_of_view R.forest (a := ()) hdesc hone)

omit hno n in
theorem Rootfs.resolve_dir :
    ∃ k es, Place w.fs (diskTop env) () p k ∧ w.fs.entries k = some es ∧
      w.resolve env AT_FDCWD (mntPath p) = .found k := by
  obtain ⟨k, place⟩ := R.place hp
  obtain ⟨es, he⟩ := w.fs.isDir_iff.mp place.isDir
  exact ⟨k, es, place, he, by simpa [FS.lookup_nil] using R.resolve place []⟩

omit n in
theorem Rootfs.openat_dir (habi : env.abi = .generic) :
    ∃ k es, Place w.fs (diskTop env) () p k ∧ w.fs.entries k = some es ∧
      (kernel env w (.openat AT_FDCWD (mntPath p) dirFlags)).2.ret = w.nextFd ∧
      Opened w (kernel env w (.openat AT_FDCWD (mntPath p) dirFlags)).1
        (.dir k (listing es) []) := by
  obtain ⟨k, es, place, he, hresolve⟩ := R.resolve_dir hp
  refine ⟨k, es, place, he, kernel_opened env (hno _) ?_⟩
  change w.openPath env AT_FDCWD (mntPath p) dirFlags = _
  unfold World.openPath
  rw [hresolve]
  exact World.openNode_of_dir env (mode_dirFlags_ne_creat _) (by rw [habi]; decide) he

omit hno n in
/-- Where the flags mean `O_DIRECT`, no directory is opened. -/
theorem Rootfs.openat_dir_direct (habi : env.abi = .arm64) :
    (kernel env w (.openat AT_FDCWD (mntPath p) dirFlags)).2.ret < 0 ∧
      Quiet w (kernel env w (.openat AT_FDCWD (mntPath p) dirFlags)).1 := by
  obtain ⟨k, es, _, he, hresolve⟩ := R.resolve_dir hp
  apply kernel_error env .EINVAL rfl
  change w.openPath env AT_FDCWD (mntPath p) dirFlags = _
  unfold World.openPath
  rw [hresolve, habi]
  exact World.openNode_direct env he

theorem Rootfs.newfstatat :
    Quiet w (kernel env w (.newfstatat AT_FDCWD (mntPath (p ++ [n])))).1 ∧
    (((kernel env w (.newfstatat AT_FDCWD (mntPath (p ++ [n])))).2.ret = 0 ∧
      (kernel env w (.newfstatat AT_FDCWD (mntPath (p ++ [n])))).2.type = .dir) ↔
        V (p ++ [n]) = some .dir) := by
  obtain ⟨k, place⟩ := R.place hp
  have hview := R.view_child place n
  have hstat : w.attempt env (.newfstatat AT_FDCWD (mntPath (p ++ [n]))) =
      w.stat env AT_FDCWD (mntPath (p ++ [n])) := by
    simp only [World.attempt, hno w.tick, World.exec]
  have hparent : w.stat env AT_FDCWD (mntPath (p ++ [n])) =
      (w.fs.child k n).elim (.error .ENOENT) fun i =>
        .ok (w, { ret := 0, type := w.fileType i }) := by
    cases hc : w.fs.child k n <;> simp [World.stat, R.resolveParent place n, Bind.bind, Except.bind, hc]
  unfold kernel
  rw [hstat, hparent]
  cases hc : w.fs.child k n with
  | none =>
      rw [hc] at hview
      refine ⟨⟨rfl, rfl, rfl, rfl⟩, ?_⟩
      simp [hview, Errno.ENOENT]
  | some i =>
      rw [hc, Option.bind_some] at hview
      refine ⟨⟨rfl, rfl, rfl, rfl⟩, ?_⟩
      rw [hview, w.fs.obj_eq_dir_iff]
      cases hn : w.fs.node i with
      | none => simp [World.fileType, FS.isDir, FS.entries, hn]
      | some node => cases node <;> simp [World.fileType, FS.isDir, FS.entries, hn]

omit hno in
/-- There is nothing to open. -/
theorem Rootfs.openat_absent (habsent : V (p ++ [n]) = none) :
    (kernel env w (.openat AT_FDCWD (mntPath (p ++ [n])) dirFlags)).2.ret < 0 ∧
      Quiet w (kernel env w (.openat AT_FDCWD (mntPath (p ++ [n])) dirFlags)).1 := by
  obtain ⟨k, place⟩ := R.place hp
  have hview := R.view_child place n
  have hc : w.fs.child k n = none := by
    cases hc : w.fs.child k n with
    | none => rfl
    | some i =>
        rw [habsent, hc, Option.bind_some, eq_comm, FS.obj_eq_none_iff] at hview
        exact absurd hview (R.forest.live (a := ()) (R.below_child place hc).1)
  have hopen : ∃ e, w.exec env (.openat AT_FDCWD (mntPath (p ++ [n])) dirFlags) = .error e := by
    change ∃ e, w.openPath env AT_FDCWD (mntPath (p ++ [n])) dirFlags = .error e
    unfold World.openPath
    rw [R.resolve place [n]]
    cases hl : w.fs.lookup (w.space env) k ([n].map .name) with
    | found j => exact absurd hl (FS.lookup_of_no_child hc j)
    | missing d m => exact ⟨_, if_neg (mode_dirFlags_ne_creat _)⟩
    | fail e => exact ⟨e, rfl⟩
  obtain ⟨e, he⟩ := hopen
  exact kernel_error env e rfl he

end Calls

end Steps

end Hub11.Recovery
