import Hub11.Posix.InPlace
import Hub11.Posix.Moves
import Hub11.Posix.Outcomes
import Hub11.Recovery.Rootfs

/-!
The merges stay inside their trees.

`merge_dir` works relative to descriptors, so it changes directories outside the three
trees only if a descriptor got outside, and that takes an `openat` that follows a link to a
directory. The invariant is that every open directory is at a path of one of the trees, or is
gone. It is shown for each kind of call the merges make (`MergeCall`). On arm64 the flags of
the source open no directory, so no link is followed to one.
-/

namespace Hub11.Recovery

open Hub11.Effect Hub11.Posix

/-- The run opens no directory through a link. This is a condition only where the flags of the
source open directories at all. -/
def InPlace {α : Type} (env : Env) (p : Sys α) (w : World) : Prop :=
  ∀ t ∈ p.steps (kernel env) w, env.abi = .generic → t.1.opensInPlace env t.2 = true

theorem inPlace_arm64 {α : Type} {env : Env} (harm : env.abi = .arm64) (p : Sys α) (w : World) :
    InPlace env p w := by
  intro t _ habi
  rw [harm] at habi
  cases habi

/-- The path is at or below one of the three directories that are merged. -/
def InTrees (p : List Name) : Prop := [nLibOld] <+: p ∨ [nLib] <+: p ∨ [nUsr, nLib] <+: p

theorem InTrees.append {p : List Name} (h : InTrees p) (q : List Name) : InTrees (p ++ q) := by
  rcases h with h | h | h
  · exact .inl (h.trans (List.prefix_append p q))
  · exact .inr (.inl (h.trans (List.prefix_append p q)))
  · exact .inr (.inr (h.trans (List.prefix_append p q)))

/-- A directory of one of the trees, reached from the root without following a link. -/
def Inner (env : Env) (fs : FS) (k : Ino) : Prop := ∃ p, InTrees p ∧ Place fs (diskTop env) () p k

/-- Entries are added, replaced or removed only in directories of the trees, and in the
root only at the names `lib_old` and `lib`. -/
def Confined (env : Env) (w w' : World) : Prop :=
  ∀ k n, w'.fs.child k n ≠ w.fs.child k n →
    Inner env w.fs k ∨ (k = env.diskRoot ∧ (n = nLibOld ∨ n = nLib))

theorem Confined.of_fs_eq {env : Env} {w w' : World} (h : w'.fs = w.fs) : Confined env w w' :=
  fun k n hne => absurd (by rw [h]) hne

/-- Every open directory is in one of the trees or gone from the table. From such a state no call of
the merges gets outside. -/
structure Contained (env : Env) (w : World) : Prop where
  mounted : Mounted env w
  forest : Forest w.fs env.diskRoot.dev (diskTop env)
  root : w.fs.isDir env.diskRoot = true
  held : ∀ k i born seen, w.fds k = some (.dir i born seen) →
    Inner env w.fs i ∨ (w.fs.isDir i = false ∧ i.num < w.fs.next)

/-- The calls of the merges. A call that changes a directory names it by a descriptor, or is the
`rmdir` of one of the two roots. -/
inductive MergeCall : Syscall → Prop where
  | puts (fd : Int) (t : Text) : MergeCall (.puts fd t)
  | close (fd : Int) : MergeCall (.close fd)
  | list (fd : Int) (size : Nat) : MergeCall (.getdents64 fd size)
  | stat (fd : Int) (path : Path) : MergeCall (.newfstatat fd path)
  | rename {fd fd' : Int} (n : Name) (hfd : fd ≠ AT_FDCWD) (hfd' : fd' ≠ AT_FDCWD) :
      MergeCall (.renameat fd (.ofName n) fd' (.ofName n))
  | mkdir {fd : Int} (n : Name) (hfd : fd ≠ AT_FDCWD) : MergeCall (.mkdirat fd (.ofName n))
  | rmdir {fd : Int} (n : Name) (hfd : fd ≠ AT_FDCWD) : MergeCall (.unlinkat fd (.ofName n) true)
  | rmTop {n : Name} (hn : n = nLibOld ∨ n = nLib) :
      MergeCall (.unlinkat AT_FDCWD (mntPath [n]) true)
  | openSub {fd : Int} (n : Name) (hfd : fd ≠ AT_FDCWD) :
      MergeCall (.openat fd (.ofName n) dirFlags)
  | openTop {p : List Name} (hp : InTrees p) : MergeCall (.openat AT_FDCWD (mntPath p) dirFlags)

section Paths

variable {env : Env} {w : World} {fd : Int} {n m : Name} {d : Ino}

theorem base_name (hfd : fd ≠ AT_FDCWD) (h : w.base env fd (.ofName n) = .ok d) :
    ∃ k born seen, w.fds k = some (.dir d born seen) := by
  unfold World.base at h
  rw [if_neg (by simp), if_neg hfd] at h
  split at h
  · rename_i k
    split at h
    · rename_i i born seen hk
      cases h
      exact ⟨k, born, seen, hk⟩
    · cases h
    · cases h
  · cases h

/-- A name relative to a descriptor is a name in the directory it is open on. -/
theorem resolveParent_name (hfd : fd ≠ AT_FDCWD) (h : w.resolveParent env fd (.ofName n) = .ok (d, m)) :
    m = n ∧ ∃ k born seen, w.fds k = some (.dir d born seen) := by
  unfold World.resolveParent at h
  cases hbase : w.base env fd (.ofName n) with
  | error e =>
      rw [hbase] at h
      cases h
  | ok i =>
      rw [hbase] at h
      cases h
      exact ⟨rfl, base_name hfd hbase⟩

end Paths

section Steps

variable {env : Env} {w w' : World}

/-- Steps that leave the file system alone and open nothing. -/
theorem Contained.same (C : Contained env w) (hfs : w'.fs = w.fs) (hmount : w'.mount = w.mount)
    (hfds : ∀ k i born seen, w'.fds k = some (.dir i born seen) →
      ∃ k' born' seen', w.fds k' = some (.dir i born' seen')) : Contained env w' where
  mounted := by
    obtain ⟨point, ram⟩ := C.mounted
    refine ⟨?_, ram⟩
    rw [hfs, hmount]
    exact point
  forest := hfs ▸ C.forest
  root := hfs ▸ C.root
  held := by
    intro k i born seen hk
    obtain ⟨k', born', seen', hk'⟩ := hfds k i born seen hk
    rw [hfs]
    exact C.held k' i born' seen' hk'

/-- Steps that change directories of the disk. -/
theorem Contained.edit (C : Contained env w) {fs' : FS} (hfs : w'.fs = fs')
    (hfds : w'.fds = w.fds) (hmount : w'.mount = w.mount)
    (forest : Forest fs' env.diskRoot.dev (diskTop env)) (root : fs'.isDir env.diskRoot = true)
    (hchild : ∀ k n, k.dev ≠ env.diskRoot.dev → fs'.child k n = w.fs.child k n)
    (hdir : ∀ k, k.num < w.fs.next → fs'.isDir k = true → w.fs.isDir k = true)
    (hram : ∀ k, k.dev ≠ env.diskRoot.dev → w.fs.isDir k = true → fs'.isDir k = true)
    (hnext : w.fs.next ≤ fs'.next)
    (hinner : ∀ k, Inner env w.fs k → Inner env fs' k ∨ fs'.isDir k = false) :
    Contained env w' := by
  subst hfs
  constructor
  · obtain ⟨⟨mnt, hmnt, hmntDir, hpoint, hdev⟩, ram⟩ := C.mounted
    refine ⟨⟨mnt, ?_, hram mnt hdev hmntDir, hmount.trans hpoint, hdev⟩, ram⟩
    rw [hchild _ _ ram]
    exact hmnt
  · exact forest
  · exact root
  · intro k i born seen hk
    rw [hfds] at hk
    rcases C.held k i born seen hk with hinside | ⟨hgone, hold⟩
    · have hnum : i.num < w.fs.next := by
        obtain ⟨p, _, place⟩ := hinside
        exact w.fs.bounded i (C.forest.live place.at_path)
      rcases hinner i hinside with h | h
      · exact .inl h
      · exact .inr ⟨h, Nat.lt_of_lt_of_le hnum hnext⟩
    · refine .inr ⟨?_, Nat.lt_of_lt_of_le hold hnext⟩
      by_contra hdir'
      rw [Bool.not_eq_false] at hdir'
      rw [hdir i hold hdir'] at hgone
      cases hgone

theorem Contained.inner_of_open (C : Contained env w) {k : Nat} {i : Ino} {born seen : List Comp}
    (hk : w.fds k = some (.dir i born seen)) (hdir : w.fs.isDir i = true) : Inner env w.fs i := by
  rcases C.held k i born seen hk with h | ⟨h, _⟩
  · exact h
  · rw [hdir] at h
    cases h

theorem Inner.onDisk {fs : FS} {k : Ino} (F : Forest fs env.diskRoot.dev (diskTop env))
    (h : Inner env fs k) : k.dev = env.diskRoot.dev := by
  obtain ⟨p, _, place⟩ := h
  exact F.onDev place.at_path

/-- A new directory in a directory of the trees. -/
theorem Contained.link (C : Contained env w) {k : Ino} {n : Name} (hk : Inner env w.fs k)
    (hfree : w.fs.child k n = none) (hfs : w'.fs = w.fs.link k n (.dir k []))
    (hfds : w'.fds = w.fds) (hmount : w'.mount = w.mount) :
    Contained env w' ∧ Confined env w w' := by
  obtain ⟨p, hp, place⟩ := hk
  have hbare : (Node.dir k []).Bare := rfl
  have hdisk := Inner.onDisk C.forest ⟨p, hp, place⟩
  have hobj : ∀ j, j ≠ w.fs.fresh k.dev → (w.fs.link k n (.dir k [])).isDir j = w.fs.isDir j := by
    intro j hj
    apply FS.isDir_eq_of_obj
    rw [FS.obj_link, if_neg hj]
  have hinner : ∀ {q j}, Place w.fs (diskTop env) () q j →
      Place (w.fs.link k n (.dir k [])) (diskTop env) () q j :=
    fun h => C.forest.link_place place hbare hfree h
  constructor
  · apply C.edit hfs hfds hmount (C.forest.link_forest place hbare)
    · exact (hinner ⟨rfl, C.root⟩ : Place _ (diskTop env) () [] env.diskRoot).isDir
    · intro j x hj
      rw [FS.child_link place.isDir hbare, if_neg]
      rintro ⟨rfl, _⟩
      exact hj hdisk
    · intro j hj hdir
      rwa [hobj j] at hdir
      rintro rfl
      exact absurd hj (Nat.lt_irrefl _)
    · intro j hj hdir
      rwa [hobj j]
      rintro rfl
      exact hj hdisk
    · exact Nat.le_succ _
    · rintro j ⟨q, hq, hplace⟩
      exact .inl ⟨q, hq, hinner hplace⟩
  · intro j x hne
    rw [hfs, FS.child_link place.isDir hbare] at hne
    by_cases hjx : j = k ∧ x = n
    · rw [hjx.1]
      exact .inl ⟨p, hp, place⟩
    · rw [if_neg hjx] at hne
      exact absurd rfl hne

/-- An empty directory is removed. -/
theorem Contained.remove (C : Contained env w) {p : List Name} {k i : Ino} {n : Name}
    (place : Place w.fs (diskTop env) () p k)
    (hp : InTrees p ∨ (k = env.diskRoot ∧ (n = nLibOld ∨ n = nLib)))
    (hi : w.fs.child k n = some i) (hempty : w.fs.isEmptyDir i = true)
    (hfs : w'.fs = w.fs.remove k n i true) (hfds : w'.fds = w.fds) (hmount : w'.mount = w.mount) :
    Contained env w' ∧ Confined env w w' := by
  have hgone : true = true → w.fs.isEmptyDir i = true := fun _ => hempty
  have hdisk : k.dev = env.diskRoot.dev := C.forest.onDev place.at_path
  have hpath : w.fs.descend env.diskRoot (p ++ [n]) = some i := by
    rw [FS.descend_append, show w.fs.descend env.diskRoot p = some k from place.at_path]
    simp [FS.descend_cons, hi]
  have hisDir : ∀ j, (w.fs.remove k n i true).isDir j = true ↔ j ≠ i ∧ w.fs.isDir j = true := by
    intro j
    rw [← FS.obj_eq_dir_iff, ← FS.obj_eq_dir_iff, FS.obj_remove]
    by_cases hj : j = i
    · simp [hj]
    · simp [hj]
  constructor
  · apply C.edit hfs hfds hmount (C.forest.remove_forest place hi hgone)
    · rw [hisDir]
      exact ⟨(C.forest.ne_of_place (a := ()) (b := ()) (q := []) hpath rfl C.root (by simp)).symm,
        C.root⟩
    · intro j x hj
      rw [C.forest.remove_child place hi hgone, if_neg]
      rintro ⟨rfl, _⟩
      exact hj hdisk
    · intro j _ hdir
      exact ((hisDir j).mp hdir).2
    · intro j hj hdir
      rw [hisDir]
      refine ⟨?_, hdir⟩
      rintro rfl
      exact hj (C.forest.onDev (a := ()) hpath)
    · exact Nat.le_refl _
    · rintro j ⟨q, hq, hplace⟩
      by_cases hbelow : p ++ [n] <+: q
      · obtain ⟨t, rfl⟩ := hbelow
        have hat := hplace.at_path
        rw [FS.descend_append, show w.fs.descend (diskTop env ()) (p ++ [n]) = some i from hpath] at hat
        obtain ⟨_, rfl⟩ := FS.descend_empty hempty hat
        refine .inr ?_
        rw [← Bool.not_eq_true, hisDir]
        exact fun h => h.1 rfl
      · exact .inl ⟨q, hq, C.forest.remove_place place hi hgone hplace fun h => hbelow h.2⟩
  · intro j x hne
    rw [hfs, C.forest.remove_child place hi hgone] at hne
    by_cases hjx : j = k ∧ x = n
    · obtain ⟨rfl, rfl⟩ := hjx
      rcases hp with hp | hp
      · exact .inl ⟨p, hp, place⟩
      · exact .inr hp
    · rw [if_neg hjx] at hne
      exact absurd rfl hne

/-- A name is moved from one directory of the trees to another. -/
theorem Contained.relink (C : Contained env w) {p q : List Name} {s d i : Ino} {n m : Name}
    (M : Movable w.fs (diskTop env) () () p q s d i n m) (hp : InTrees p) (hq : InTrees q)
    (hfs : w'.fs = w.fs.relink s n d m i (w.fs.child d m)) (hfds : w'.fds = w.fds)
    (hmount : w'.mount = w.mount) : Contained env w' ∧ Confined env w w' := by
  have hs : s.dev = env.diskRoot.dev := C.forest.onDev M.src.at_path
  have hd : d.dev = env.diskRoot.dev := C.forest.onDev M.dst.at_path
  have hkeep : ∀ j, ¬ (w.fs.child d m = some j ∧ w.fs.isDir j = true) →
      (w.fs.relink s n d m i (w.fs.child d m)).isDir j = w.fs.isDir j :=
    fun j hj => FS.isDir_relink hj
  constructor
  · apply C.edit hfs hfds hmount (M.relink_forest C.forest)
    · rw [hkeep, C.root]
      rintro ⟨hold, hdir⟩
      exact C.forest.ne_of_place (a := ()) (b := ()) (q := []) (M.descend_old hold []) rfl C.root
        (by simp) rfl
    · intro j x hj
      rw [M.relink_child C.forest, if_neg, if_neg]
      · rintro ⟨rfl, _⟩
        exact hj hs
      · rintro ⟨rfl, _⟩
        exact hj hd
    · intro j _ hdir
      by_cases hold : w.fs.child d m = some j ∧ w.fs.isDir j = true
      · exact hold.2
      · rwa [hkeep j hold] at hdir
    · intro j hj hdir
      rw [hkeep j]
      · exact hdir
      · rintro ⟨hold, _⟩
        exact hj (C.forest.onDev (M.descend_old hold []))
    · rw [FS.next_relink]
    · rintro j ⟨r, hr, hplace⟩
      rcases M.relink_place C.forest hplace with h | ⟨t, _, h⟩ | h
      · exact .inl ⟨r, hr, h⟩
      · exact .inl ⟨_, hq.append _, h⟩
      · exact .inr h
  · intro j x hne
    rw [hfs, M.relink_child C.forest] at hne
    by_cases hjd : j = d ∧ x = m
    · rw [hjd.1]
      exact .inl ⟨q, hq, M.dst⟩
    · by_cases hjs : j = s ∧ x = n
      · rw [hjs.1]
        exact .inl ⟨p, hp, M.src⟩
      · rw [if_neg hjd, if_neg hjs] at hne
        exact absurd rfl hne

/-- A directory is opened that is in one of the trees. -/
theorem Contained.opened (C : Contained env w) {i : Ino} {born seen : List Comp}
    (hi : Inner env w.fs i) : Contained env (w.openDesc (.dir i born seen)).1 := by
  refine ⟨⟨C.mounted.point, C.mounted.ram⟩, C.forest, C.root, ?_⟩
  intro k j born' seen' hk
  change (if k = w.nextFd then some _ else w.fds k) = _ at hk
  split at hk
  · cases hk
    exact .inl hi
  · exact C.held k j born' seen' hk

/-- A directory found without links below a directory of the trees is in them. -/
theorem Contained.inner_child (C : Contained env w) {k i : Ino} {n : Name} (hk : Inner env w.fs k)
    (hi : w.fs.walk (w.space env) 0 k [.name n] = .found i) (hdir : w.fs.isDir i = true) :
    Inner env w.fs i := by
  obtain ⟨p, hp, place⟩ := hk
  have hpath : ∀ q j, w.fs.descend k q = some j → w.fs.descend env.diskRoot (p ++ q) = some j := by
    intro q j hq
    rw [FS.descend_append, show w.fs.descend env.diskRoot p = some k from place.at_path]
    exact hq
  have hcross : ∀ q j, w.fs.descend k q = some j → (w.space env).cross j = j := fun q j hq =>
    C.mounted.cross (C.forest.onDev (a := ()) (hpath q j hq))
  have hchild := FS.descend_of_walk_zero (p := [n]) hcross hi
  exact ⟨p ++ [n], hp.append _, hpath _ _ hchild, hdir⟩

/-- What is found without links at a path below `/mnt` is at that path of the disk. -/
theorem Mounted.place_of_walk (h : Mounted env w)
    (F : Forest w.fs env.diskRoot.dev (diskTop env)) {p : List Name} {i : Ino}
    (hi : w.fs.walk (w.space env) 0 env.ramRoot (mntPath p).comps = .found i)
    (hdir : w.fs.isDir i = true) : Place w.fs (diskTop env) () p i := by
  obtain ⟨mnt, hmnt, hmntDir, hmount, _⟩ := h.point
  have hcross : (w.space env).cross mnt = env.diskRoot := by
    simp [World.space, Space.cross, hmount]
  rw [show (mntPath p).comps = .name nMnt :: p.map .name from rfl,
    FS.walk_cons_of_child 0 hmnt (FS.not_symlink_of_isDir hmntDir), hcross] at hi
  refine ⟨FS.descend_of_walk_zero (fun q j hq => ?_) hi, hdir⟩
  exact h.cross (F.onDev (a := ()) hq)

/-- One call of the merges keeps the open directories inside the trees, and changes nothing outside.
This is the step lemma of the invariant. -/
theorem Contained.step (C : Contained env w) {op : Syscall} (hop : MergeCall op)
    (hplace : env.abi = .generic → w.opensInPlace env op = true) :
    Contained env (kernel env w op).1 ∧ Confined env w (kernel env w op).1 := by
  obtain ⟨w', houtcome, heq⟩ := kernel_outcome env w op
  suffices h : Contained env w' ∧ Confined env w w' by
    rw [heq]
    refine ⟨h.1.same rfl rfl fun k i born seen hk => ⟨k, born, seen, hk⟩, h.2⟩
  have same : Contained env w ∧ Confined env w w := ⟨C, Confined.of_fs_eq rfl⟩
  have openFile : ∀ i, Contained env (w.openDesc (.file i 0)).1 ∧
      Confined env w (w.openDesc (.file i 0)).1 := by
    refine fun i => ⟨C.same rfl rfl fun k j born seen hk => ?_, Confined.of_fs_eq rfl⟩
    change (if k = w.nextFd then some _ else w.fds k) = _ at hk
    split at hk
    · cases hk
    · exact ⟨k, born, seen, hk⟩
  cases hop with
  | puts fd t =>
      cases houtcome with
      | same => exact same
      | puts => exact ⟨C.same rfl rfl fun k i born seen hk => ⟨k, born, seen, hk⟩, Confined.of_fs_eq rfl⟩
  | close fd =>
      cases houtcome with
      | same => exact same
      | close =>
          refine ⟨C.same rfl rfl fun k i born seen hk => ?_, Confined.of_fs_eq rfl⟩
          change (if fd = (k : Int) then none else w.fds k) = _ at hk
          split at hk
          · cases hk
          · exact ⟨k, born, seen, hk⟩
  | list fd size =>
      cases houtcome with
      | same => exact same
      | @listed _ _ j born₀ seen₀ seen₁ hfd =>
          refine ⟨C.same rfl rfl fun k i born seen hk => ?_, Confined.of_fs_eq rfl⟩
          change (if fd = (k : Int) then some _ else w.fds k) = _ at hk
          split at hk
          · rename_i hk'
            cases hk
            subst hk'
            exact ⟨k, _, _, hfd⟩
          · exact ⟨k, born, seen, hk⟩
  | stat fd path =>
      cases houtcome with
      | same => exact same
  | @rename fd fd' n hfd hfd' =>
      cases houtcome with
      | same => exact same
      | @rename _ _ _ _ s d n₁ n₂ fs hres hres' hfs =>
          obtain ⟨rfl, k, born, seen, hk⟩ := resolveParent_name hfd hres
          obtain ⟨rfl, k', born', seen', hk'⟩ := resolveParent_name hfd' hres'
          rcases FS.rename_cases hfs with rfl | ⟨hs, hd, -, i, hi, -, rfl, hinside, hold⟩
          · exact same
          · obtain ⟨p, hp, src⟩ := C.inner_of_open hk hs
            obtain ⟨q, hq, dst⟩ := C.inner_of_open hk' hd
            have hempty := fun j hj => And.intro (hold j hj).1 (hold j hj).2.2
            exact C.relink (C.forest.movable src dst hi hinside hempty) hp hq rfl rfl rfl
  | @mkdir fd n hfd =>
      cases houtcome with
      | same => exact same
      | @mkdir _ _ d _ fs hres hfs =>
          obtain ⟨rfl, k, born, seen, hk⟩ := resolveParent_name hfd hres
          unfold FS.mkdir FS.create at hfs
          split at hfs
          · rename_i hd
            split at hfs
            · cases hfs
            · rename_i hfree
              cases hfs
              exact C.link (C.inner_of_open hk hd) hfree rfl rfl rfl
          · cases hfs
  | @rmdir fd n hfd =>
      cases houtcome with
      | same => exact same
      | @rmdir _ _ d _ fs hres hfs =>
          obtain ⟨rfl, k, born, seen, hk⟩ := resolveParent_name hfd hres
          obtain ⟨i, hi, hempty, -, rfl⟩ := FS.rmdir_ok hfs
          obtain ⟨p, hp, place⟩ := C.inner_of_open hk (w.fs.isDir_of_child hi)
          exact C.remove place (.inl hp) hi hempty rfl rfl rfl
  | @rmTop n hn =>
      cases houtcome with
      | same => exact same
      | @rmdir _ _ d _ fs hres hfs =>
          rw [C.mounted.resolveParent] at hres
          cases hres
          obtain ⟨i, hi, hempty, -, rfl⟩ := FS.rmdir_ok hfs
          have place : Place w.fs (diskTop env) () [] env.diskRoot := ⟨rfl, C.root⟩
          exact C.remove place (.inr ⟨rfl, hn⟩) hi hempty rfl rfl rfl
  | @openSub fd n hfd =>
      cases houtcome with
      | same => exact same
      | @openDir _ _ _ i es hmode hres hes =>
          have hdir : w.fs.isDir i = true := w.fs.isDir_iff.mpr ⟨es, hes⟩
          unfold World.resolve at hres
          cases hbase : w.base env fd (.ofName n) with
          | error e =>
              rw [hbase] at hres
              cases hres
          | ok d =>
              rw [hbase] at hres
              have hwalk := World.walk_of_opensInPlace (mode_of_not_direct hmode)
                (hplace (abi_of_not_direct hmode)) hbase hres hdir
              obtain ⟨k, born, seen, hk⟩ := base_name hfd hbase
              have hd : w.fs.isDir d = true := by
                by_contra hd
                have hnone : w.fs.entries d = none := by simpa [FS.isDir] using hd
                simp [FS.walk, FS.walkFrom, hnone] at hwalk
              exact ⟨C.opened (C.inner_child (C.inner_of_open hk hd) hwalk hdir), Confined.of_fs_eq rfl⟩
      | openFile _ _ => exact openFile _
      | openTrunc hmode _ _ => exact absurd hmode (mode_dirFlags_ne_creat _)
      | openNew hmode _ _ => exact absurd hmode (mode_dirFlags_ne_creat _)
  | @openTop p hp =>
      cases houtcome with
      | same => exact same
      | @openDir _ _ _ i es hmode hres hes =>
          have hdir : w.fs.isDir i = true := w.fs.isDir_iff.mpr ⟨es, hes⟩
          have hwalk := World.walk_of_opensInPlace (mode_of_not_direct hmode)
                (hplace (abi_of_not_direct hmode)) rfl hres hdir
          exact ⟨C.opened ⟨p, hp, C.mounted.place_of_walk C.forest hwalk hdir⟩, Confined.of_fs_eq rfl⟩
      | openFile _ _ => exact openFile _
      | openTrunc hmode _ _ => exact absurd hmode (mode_dirFlags_ne_creat _)
      | openNew hmode _ _ => exact absurd hmode (mode_dirFlags_ne_creat _)

end Steps

/-! ### Runs -/

section Runs

variable {env : Env} {w : World} {α β : Type}

/-- As long as no directory is opened through a link, all steps are confined and the
descriptors stay inside; the value has the property `Q`. -/
def Stays (env : Env) (Q : α → Prop) (p : Sys α) (w : World) : Prop :=
  p.Upholds (kernel env) (fun w op => env.abi = .generic → w.opensInPlace env op = true)
    (fun w op => Confined env w (kernel env w op).1) (fun a w' => Contained env w' ∧ Q a) w

/-- Nothing is said about the value. -/
abbrev StaysIn (env : Env) (p : Sys α) (w : World) : Prop := Stays env (fun _ => True) p w

theorem Stays.bind {Q : α → Prop} {R : β → Prop} {p : Sys α} {f : α → Sys β} (h : Stays env Q p w)
    (hf : ∀ a w', Contained env w' → Q a → Stays env R (f a) w') : Stays env R (p >>= f) w :=
  Prog.Upholds.bind (h.mono fun a w' hend => hf a w' hend.1 hend.2)

theorem stays_pure {Q : α → Prop} (C : Contained env w) {a : α} (hQ : Q a) :
    Stays env Q (pure a) w :=
  ⟨C, hQ⟩

theorem stays_perform (C : Contained env w) {op : Syscall} (hop : MergeCall op) :
    StaysIn env (Prog.perform op) w := by
  intro hplace
  obtain ⟨C', hconf⟩ := C.step hop hplace
  exact ⟨hconf, C', trivial⟩

theorem stays_call (C : Contained env w) {op : Syscall} (hop : MergeCall op) :
    StaysIn env (call op) w :=
  (stays_perform C hop).bind fun _ _ C' _ => stays_pure C' trivial

theorem stays_print (C : Contained env w) (out : Int) (t : Text) : StaysIn env (print out t) w :=
  (stays_call C (.puts out t)).bind fun _ _ C' _ => stays_pure C' trivial

theorem stays_closeOpen (C : Contained env w) (fd : Int) : StaysIn env (closeOpen fd) w := by
  unfold closeOpen onlyIf
  split
  · exact (stays_call C (.close fd)).bind fun _ _ C' _ => stays_pure C' trivial
  · exact stays_pure C trivial

variable (hord : env.choices.Ordinary)
include hord

/-- What `openat` returns is not taken for the working directory. -/
theorem stays_openat (C : Contained env w) {fd : Int} {path : Path}
    (hop : MergeCall (.openat fd path dirFlags)) :
    Stays env (· ≠ AT_FDCWD) (call (.openat fd path dirFlags)) w := by
  intro hplace
  obtain ⟨C', hconf⟩ := C.step hop hplace
  refine ⟨hconf, C', ?_⟩
  have hnew : ((w.nextFd : Nat) : Int) ≠ AT_FDCWD := by
    unfold AT_FDCWD
    omega
  rcases kernel_openat_code hord w fd path (mode_dirFlags_ne_creat _) with
    ⟨_, hne, _⟩ | ⟨_, _, hret, _⟩ | ⟨_, _, _, _, _, hret, _⟩
  · exact hne
  · exact hret ▸ hnew
  · exact hret ▸ hnew

section Entry

variable {recurse : Int → Int → Sys Unit} {srcFd dstFd : Int} (hsrc : srcFd ≠ AT_FDCWD)
  (hdst : dstFd ≠ AT_FDCWD)
  (hrec : ∀ a b w, a ≠ AT_FDCWD → b ≠ AT_FDCWD → Contained env w → StaysIn env (recurse a b) w)
include hsrc hdst hrec

theorem mergeSubdir_stays (C : Contained env w) (n : Name) :
    StaysIn env (mergeSubdir recurse srcFd dstFd (.name n)) w := by
  unfold mergeSubdir
  apply (stays_openat hord C (.openSub n hsrc)).bind
  intro subSrc w₁ C₁ hsub
  apply (stays_call C₁ (.mkdir n hdst)).bind
  intro _ w₂ C₂ _
  apply (stays_openat hord C₂ (.openSub n hdst)).bind
  intro subDst w₃ C₃ hsub'
  have hsubdirs : StaysIn env (onlyIf (subSrc ≥ 0 ∧ subDst ≥ 0) (recurse subSrc subDst)) w₃ := by
    unfold onlyIf
    split
    · exact hrec subSrc subDst w₃ hsub hsub' C₃
    · exact stays_pure C₃ trivial
  apply hsubdirs.bind
  intro _ w₄ C₄ _
  apply (stays_closeOpen C₄ subSrc).bind
  intro _ w₅ C₅ _
  apply (stays_closeOpen C₅ subDst).bind
  intro _ w₆ C₆ _
  apply (stays_call C₆ (.rmdir n hsrc)).bind
  exact fun _ _ C' _ => stays_pure C' trivial

theorem mergeEntry_stays (C : Contained env w) (out : Int) (indent : String) (c : Comp) :
    StaysIn env (mergeEntry out recurse srcFd dstFd indent c) w := by
  cases c with
  | dot => exact stays_pure C trivial
  | dotdot => exact stays_pure C trivial
  | name n =>
      unfold mergeEntry
      split
      · apply (stays_print C out _).bind
        intro _ w₁ C₁ _
        apply (stays_print C₁ out _).bind
        intro _ w₂ C₂ _
        apply (stays_print C₂ out _).bind
        intro _ w₃ C₃ _
        apply (stays_call C₃ (.rename n hsrc hdst)).bind
        intro r w₄ C₄ _
        split
        · exact stays_print C₄ out _
        · apply (stays_print C₄ out _).bind
          intro _ w₅ C₅ _
          exact mergeSubdir_stays hord hsrc hdst hrec C₅ n
      · exact stays_pure C trivial

end Entry

theorem mergeDir_stays (out : Int) (fuel : Nat) {srcFd dstFd : Int} (indent : String)
    (hsrc : srcFd ≠ AT_FDCWD) (hdst : dstFd ≠ AT_FDCWD) (C : Contained env w) :
    StaysIn env (mergeDir out fuel srcFd dstFd indent) w := by
  induction fuel generalizing srcFd dstFd indent w with
  | zero => trivial
  | succ fuel ih =>
      have records : ∀ (cs : List Comp) (w : World), Contained env w → StaysIn env
          (cs.forM (mergeEntry out (fun s d => mergeDir out fuel s d "    ") srcFd dstFd indent)) w := by
        intro cs
        induction cs with
        | nil => exact fun w C => stays_pure C trivial
        | cons c cs ihc =>
            intro w C
            apply (mergeEntry_stays hord hsrc hdst (fun a b w ha hb C => ih "    " ha hb C) C out
              indent c).bind
            exact fun _ w' C' _ => ihc w' C'
      unfold mergeDir
      apply (stays_perform C (.list srcFd 2048)).bind
      intro r w₁ C₁ _
      split
      · apply (records r.dents w₁ C₁).bind
        exact fun _ w' C' _ => ih indent hsrc hdst C'
      · exact stays_pure C₁ trivial

theorem mergeFrom_stays (out : Int) (fuel : Nat) {srcFd dstLib : Int} (hsrc : srcFd ≠ AT_FDCWD)
    (hdst : dstLib ≠ AT_FDCWD) (C : Contained env w) :
    StaysIn env (mergeFrom out fuel srcFd dstLib) w := by
  apply (mergeDir_stays hord out fuel "" hsrc hdst C).bind
  intro _ w' C' _
  apply (stays_call C' (.close srcFd)).bind
  exact fun _ _ C'' _ => stays_pure C'' trivial

theorem mergePhases_stays (out : Int) (fuel : Nat) (C : Contained env w) :
    StaysIn env (mergePhases out fuel) w := by
  have finish : ∀ {n : Name} (w : World), n = nLibOld ∨ n = nLib → Contained env w →
      StaysIn env (do let _ ← call (.unlinkat AT_FDCWD (mntPath [n]) true)) w :=
    fun w hn C => (stays_call C (.rmTop hn)).bind fun _ _ C' _ => stays_pure C' trivial
  unfold mergePhases
  apply (stays_openat hord C (.openTop (.inr (.inr (List.prefix_refl _))))).bind
  intro dstLib w₁ C₁ hdst
  have libOld : StaysIn env (mergeLibOld out fuel dstLib) w₁ := by
    unfold mergeLibOld
    apply (stays_openat hord C₁ (.openTop (.inl (List.prefix_refl _)))).bind
    intro oldLib w₂ C₂ hsrc
    split
    · apply (stays_print C₂ out _).bind
      intro _ w₃ C₃ _
      apply (mergeFrom_stays hord out fuel hsrc hdst C₃).bind
      intro _ w₄ C₄ _
      exact finish w₄ (.inl rfl) C₄
    · exact stays_pure C₂ trivial
  apply libOld.bind
  intro _ w₂ C₂ _
  have lib : StaysIn env (mergeLib out fuel dstLib) w₂ := by
    unfold mergeLib
    apply (stays_perform C₂ (.stat _ _)).bind
    intro st w₃ C₃ _
    split
    · apply (stays_print C₃ out _).bind
      intro _ w₄ C₄ _
      apply (stays_openat hord C₄ (.openTop (.inr (.inl (List.prefix_refl _))))).bind
      intro curLib w₅ C₅ hsrc
      have merged : StaysIn env (onlyIf (curLib ≥ 0) (mergeFrom out fuel curLib dstLib)) w₅ := by
        unfold onlyIf
        split
        · exact mergeFrom_stays hord out fuel hsrc hdst C₅
        · exact stays_pure C₅ trivial
      apply merged.bind
      intro _ w₆ C₆ _
      exact finish w₆ (.inr rfl) C₆
    · exact stays_pure C₃ trivial
  apply lib.bind
  exact fun _ w₃ C₃ _ => stays_closeOpen C₃ dstLib

end Runs

/-- Every step of the run is confined: whatever entries it changes are those of directories inside
the trees, or the two names in the root. -/
def StepsConfined {α : Type} (env : Env) (p : Sys α) (w : World) : Prop :=
  ∀ t ∈ p.steps (kernel env) w, Confined env t.1 (kernel env t.1 t.2).1

/-- Whatever calls fail: as long as the merges of `_start` open no directory through a
link, every one of their steps changes entries only in directories of the three trees, and
in the root only the entries `lib_old` and `lib`. -/
theorem mergePhases_confined_inPlace (env : Env) (hord : env.choices.Ordinary) (V : View) (w : World)
    (R : Rootfs env V w) (hfds : ∀ k i born seen, w.fds k ≠ some (.dir i born seen)) (out : Int)
    (fuel : Nat) (hplace : InPlace env (mergePhases out fuel) w) :
    StepsConfined env (mergePhases out fuel) w := by
  have C : Contained env w :=
    { mounted := R.mounted
      forest := R.forest
      root := by
        rw [← w.fs.obj_eq_dir_iff]
        exact (congrFun R.view []).trans R.root
      held := fun k i born seen hk => absurd hk (hfds k i born seen) }
  exact Prog.Upholds.steps (mergePhases_stays hord out fuel C) hplace

/-- On arm64 the merges of `_start` stay inside their trees, whatever links there are: no
directory is opened, so none outside is. Calls may fail, but not with the number that stands
for the working directory. -/
theorem mergePhases_confined (env : Env) (hord : env.choices.Ordinary) (harm : env.abi = .arm64)
    (V : View) (w : World) (R : Rootfs env V w)
    (hfds : ∀ k i born seen, w.fds k ≠ some (.dir i born seen)) (out : Int) (fuel : Nat) :
    StepsConfined env (mergePhases out fuel) w :=
  mergePhases_confined_inPlace env hord V w R hfds out fuel (inPlace_arm64 harm _ w)

section Sample

/-- The disk is mounted on the inode `1` of the ram disk, and nothing is open. -/
def mountedWorld (fs : FS) : World where
  fs := fs
  mount := some (⟨0, 1⟩, ⟨1, 10⟩)
  fds _ := none
  nextFd := 0
  log := []
  tick := 0

/-- No failures, and directories in the order of the table, or the given names first. -/
def mountedEnv (names : List Comp) : Env where
  abi := .arm64
  ramRoot := ⟨0, 0⟩
  diskRoot := ⟨1, 10⟩
  choices :=
    { fault := fun _ => none
      leak := fun _ => false
      order := fun _ => names
      chunk := fun _ => 1
      short := fun _ => none
      diskReady := fun _ => true
      direct := fun _ => true
      console := false }

theorem rootfs_mounted {fs : FS} (names : List Comp) (k : Nat)
    (hram : fs.child ⟨0, 0⟩ nMnt = some ⟨0, 1⟩ ∧ fs.isDir ⟨0, 1⟩ = true)
    (listed : fs.Listed k 1 fun _ : Unit => ⟨1, 10⟩) (hroot : fs.view ⟨1, 10⟩ [] = some .dir) :
    Rootfs (mountedEnv names) (fs.view ⟨1, 10⟩) (mountedWorld fs) where
  mounted := ⟨⟨⟨0, 1⟩, hram.1, hram.2, rfl, by simp [mountedEnv]⟩, by simp [mountedEnv]⟩
  forest := .of_places listed
  view := rfl
  root := hroot
  bound _ _ := rfl

private def nEtc : Name := ⟨ascii ['e', 't', 'c'], by decide⟩

/-- `/usr/lib/modules` is a link to `/etc`, and `/lib_old/modules` a directory. -/
def leakyDisk : FS := .ofList
  [(⟨0, 0⟩, .dir ⟨0, 0⟩ [(nMnt, ⟨0, 1⟩)]), (⟨0, 1⟩, .dir ⟨0, 0⟩ []),
    (⟨1, 10⟩, .dir ⟨1, 10⟩ [(nUsr, ⟨1, 11⟩), (nLibOld, ⟨1, 12⟩), (nEtc, ⟨1, 13⟩)]),
    (⟨1, 11⟩, .dir ⟨1, 10⟩ [(nLib, ⟨1, 14⟩)]), (⟨1, 12⟩, .dir ⟨1, 10⟩ [(nModules, ⟨1, 15⟩)]),
    (⟨1, 13⟩, .dir ⟨1, 10⟩ []), (⟨1, 14⟩, .dir ⟨1, 11⟩ [(nModules, ⟨1, 16⟩)]),
    (⟨1, 15⟩, .dir ⟨1, 12⟩ [(nDev, ⟨1, 17⟩)]),
    (⟨1, 16⟩, .symlink ⟨false, [.dotdot, .dotdot, .name nEtc]⟩), (⟨1, 17⟩, .file [1])]

/-- Also where a link of `/usr/lib` leads to `/etc`. -/
theorem mergePhases_confined_leaky :
    StepsConfined (mountedEnv []) (mergePhases 7 20) (mountedWorld leakyDisk) :=
  mergePhases_confined _ (fun _ _ h => by cases h) rfl (leakyDisk.view ⟨1, 10⟩) _
    (rootfs_mounted _ 4 (by decide +kernel) (by decide +kernel) (by decide +kernel))
    (fun _ _ _ _ h => by cases h) 7 20

end Sample

end Hub11.Recovery
