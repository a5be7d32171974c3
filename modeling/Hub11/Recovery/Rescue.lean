import Hub11.Recovery.Boot
import Hub11.Recovery.Direct
import Hub11.Recovery.Spots

/-!
What a boot of the rescue image makes of the disk, without failures.

Steps 6 to 10 put the links and the linkers in their places one after the other (`Lays`)
and unmount the disk. On arm64 the steps before them only make the missing directories and
remove an empty `/lib` (`prepared`), so that the tree a boot leaves behind is known up to
the numbers of the new inodes.
-/

namespace Hub11.Recovery

open Hub11.Effect Hub11.Posix

/-! ### Steps 6 to 10 -/

/-- `/lib` is the link of step 6, and the linker it leads to is a file. This is what step 8 finds
out by opening it. -/
def Reachable (fs : FS) (U : View) : Prop :=
  ∃ i c data, U [nLib] = some (.leaf i) ∧ fs.node i = some (.symlink (relPath [nUsr, nLib])) ∧
    U pLd = some (.leaf c) ∧ fs.node c = some (.file data)

/-- The texts at the end of a run: the banner in any case, and that the check of step 8 was
passed if the linker can be reached. -/
def Announced (env : Env) (w : World) : Prop :=
  .lit bannerLine ∈ w.log ∧
    (Reachable w.fs (w.fs.view env.diskRoot) → .lit successLine ∈ w.log)

/-- What a boot leaves behind if the tree before step 6 is `T`: the disk is unmounted, no
file or link was written to, and every link and linker is in its place unless something is
in the way. -/
structure Rescued (env : Env) (ld ld231 : Option Bytes) (T : View) (w w' : World) : Prop where
  unmounted : w'.mount = none
  leaves : LeavesKept w.fs w'.fs
  forest : Forest w'.fs env.diskRoot.dev (diskTop env)
  lays : Lays w'.fs (spots ld ld231) T (w'.fs.view env.diskRoot)

section Run

variable {env : Env} {w : World} {V : View} {I : World → Syscall → Prop} {ld ld231 : Option Bytes}

/-- The check of step 8 finds the new linker. -/
theorem Rootfs.resolve_linker (R : Rootfs env V w) {i c : Ino} {data : Bytes}
    (hlib : V [nLib] = some (.leaf i)) (hlink : w.fs.node i = some (.symlink (relPath [nUsr, nLib])))
    (husr : V [nUsr, nLib] = some .dir) (hld : V pLd = some (.leaf c))
    (hdata : w.fs.node c = some (.file data)) :
    w.resolve env AT_FDCWD (mntPath [nLib, nLdLinux]) = .found c := by
  obtain ⟨root, hroot⟩ := R.place R.root
  obtain ⟨k, place⟩ := R.place husr
  have hrootEq : env.diskRoot = root := Option.some.inj hroot.at_path
  have hchild : ∀ {p : List Name} {d : Ino} (n : Name) (x : Ino), Place w.fs (diskTop env) () p d →
      V (p ++ [n]) = some (.leaf x) → w.fs.child d n = some x := by
    intro p d n x hd hx
    rw [R.view_child hd n] at hx
    obtain ⟨y, hy, hobj⟩ := Option.bind_eq_some_iff.mp hx
    rw [w.fs.obj_leaf_eq hobj]
    exact hy
  have hi := hchild (p := []) nLib i hroot hlib
  have hc := hchild nLdLinux c place hld
  have hcross : ∀ q j, w.fs.descend env.diskRoot q = some j → (w.space env).cross j = j :=
    fun _ _ hq => R.mounted.cross (R.forest.onDev (a := ()) hq)
  have hstart : w.resolve env AT_FDCWD (mntPath [nLib, nLdLinux]) =
      w.fs.walk (w.space env) 40 env.diskRoot [.name nLib, .name nLdLinux] :=
    R.mounted.lookup [.name nLib, .name nLdLinux]
  rw [hstart, FS.walk_cons_of_link 39 (hrootEq ▸ hi) hlink]
  have hdesc : w.fs.descend env.diskRoot [nUsr, nLib] = some k := place.at_path
  have hwalk : w.fs.walk (w.space env) 39 env.diskRoot ([nUsr, nLib].map .name ++ [.name nLdLinux])
      = w.fs.walk (w.space env) 39 k [.name nLdLinux] :=
    FS.walk_descend 39 hcross hdesc place.isDir _
  change w.fs.walk (w.space env) 39 env.diskRoot ([nUsr, nLib].map .name ++ [.name nLdLinux]) = _
  rw [hwalk, FS.walk_cons_of_child 39 hc (by simp [hdata]), FS.walk_nil]
  rw [R.mounted.cross (R.forest.onDev (a := ()) (R.below_child place hc).1)]

/-- Steps 6 to 10 on a mounted tree in which `/usr/lib` and the directory of the linkers
are there. -/
theorem rebuild_rescues (hno : env.choices.NoFaults) (hwhole : env.choices.NoShort)
    (R : Rootfs env V w) (hidle : Idle env w) (hlib : V [nUsr, nLib] = some .dir)
    (harch : V pArch = some .dir) (ram : RamFile env w nLdLinux ld)
    (ram231 : RamFile env w nLd231 ld231) (out : Int) :
    Prog.Eventually (kernel env) I (fun fuel => rebuild out fuel) w fun _ w' =>
      Rescued env ld ld231 V w w' ∧ (w.desc out = some .console → Announced env w') := by
  apply Prog.Eventually.bind (Prog.Grows.const _)
  apply Prog.eventually_of_ensures
  apply (restoreSymlinks_lays hno R out).mono
  rintro _ w₁ ⟨V₁, l₁, s₁⟩
  have hkeep : ∀ p ∈ [[nUsr, nLib], pArch], V₁ p = V p := by
    intro p hp
    apply s₁.of_not_below
    revert p
    change ∀ p ∈ [[nUsr, nLib], pArch], ∀ q ∈ [[nLib], [nLib64]], ¬ q <+: p
    decide
  apply Prog.Eventually.bind (installLinkers_grows out)
  apply (installLinkers_lays hno l₁.rootfs hwhole ((hkeep _ (by simp)).trans hlib)
    ((hkeep _ (by simp)).trans harch) (ram.since l₁.since) (ram231.since l₁.since) out).mono
  rintro _ w₂ ⟨V₂, l₂, s₂⟩
  have s₂ := (s₁.of_leavesKept l₂.since.leaves).trans s₂
  have l₂ := l₁.trans l₂
  have hlib₂ : V₂ [nUsr, nLib] = some .dir := by
    rw [s₂.of_not_below (show ∀ p ∈ spotPaths, ¬ p <+: [nUsr, nLib] by decide), hlib]
  apply Prog.eventually_of_ensures
  apply Prog.Ensures.bind
  apply (verifyLinker_ensures hno l₂.rootfs out).mono
  rintro _ w₃ ⟨l, hsuccess⟩
  have l₃ := l₂.trans l
  have hfds₂ : w₂.fds = w.fds := l₂.balanced.closed hno.noLeaks
  have hfds₃ : w₃.fds = w.fds := l₃.balanced.closed hno.noLeaks
  apply ((finish_unmounts hno l₃.rootfs (hidle.of_eq hfds₃) out).and_rel
    (r := fun w₄ => w₃.log <+: w₄.log) (run_log env (finish out) w₃)).mono
  rintro _ w₄ ⟨⟨hfs, hmount, hbanner⟩, hlog⟩
  have hview : w₄.fs.view env.diskRoot = V₂ := by rw [hfs, l₃.rootfs.view]
  refine ⟨⟨hmount, ?_, ?_, ?_⟩, fun hout => ⟨?_, ?_⟩⟩
  · rw [hfs]
    exact l₃.since.leaves
  · rw [hfs]
    exact l₃.rootfs.forest
  · rw [hview, hfs]
    exact s₂.of_leavesKept l.since.leaves
  · exact hbanner (by rw [World.desc_eq hfds₃, hout])
  · rw [hview, hfs]
    rintro ⟨i, c, data, hi, hlink, hc, hdata⟩
    have hsame : ∀ {p k}, V₂ p = some (.leaf k) → w₃.fs.node k = w₂.fs.node k := by
      intro p k hk
      rw [← l₂.rootfs.view] at hk
      obtain ⟨j, hj, hobj⟩ := Option.bind_eq_some_iff.mp hk
      cases w₂.fs.obj_leaf_eq hobj
      apply l.since.leaves k (l₂.rootfs.forest.live (a := ()) hj)
      by_contra hdir
      rw [Bool.not_eq_false, ← FS.obj_eq_dir_iff, hobj] at hdir
      cases hdir
    rw [hsame hi] at hlink
    rw [hsame hc] at hdata
    have hresolve := l₂.rootfs.resolve_linker hi hlink hlib₂ hc hdata
    exact hlog.subset (hsuccess c data hresolve hdata (by rw [World.desc_eq hfds₂, hout]))

end Run

/-! ### A boot on arm64 -/

/-- `/usr`, `/usr/lib` and `/usr/lib/aarch64-linux-gnu` are directories or missing, so that every
path of steps 6 and 7 stays on its way. -/
structure Workable (V : View) : Prop where
  usr : V [nUsr] = none ∨ V [nUsr] = some .dir
  usrLib : V [nUsr, nLib] = none ∨ V [nUsr, nLib] = some .dir
  arch : V pArch = none ∨ V pArch = some .dir

/-- The directories of the five `mkdirat` calls. -/
def madeDirs : List (List Name) :=
  [[nUsr], [nUsr, nLib], [nUsr, nLib64], pArch, [nUsr, nLib, nModules]]

theorem mkdir_closed {V : View} (hV : V.Closed) {p q : List Name} {n : Name} (hq : q = p ++ [n])
    (hp : V p = some .dir) : (V.mkdir q).Closed := by
  subst hq
  unfold View.mkdir
  split
  · intro r t hr ht
    by_cases hbelow : p ++ [n] <+: r
    · obtain ⟨u, rfl⟩ := hbelow
      rw [View.put_append] at hr
      rw [List.append_assoc, View.put_append]
      exact View.closed_one .dir u t hr ht
    · rw [View.put_of_not_below _ _ hbelow] at hr
      rw [View.put_of_not_below]
      · exact hV r t hr ht
      · -- otherwise `r` is a directory on the way to `p`
        intro hpre
        rcases List.prefix_or_prefix_of_prefix hpre (List.prefix_append r t) with h | h
        · exact hbelow h
        · rw [List.prefix_concat_iff] at h
          rcases h with rfl | ⟨u, rfl⟩
          · exact hbelow (List.prefix_refl _)
          · by_cases hu : u = []
            · subst hu
              exact hr (by simpa using hp)
            · rw [hV r u hr hu] at hp
              cases hp
  · exact hV

theorem mkdir_there (V : View) (p : List Name) : V.mkdir p p ≠ none := by
  unfold View.mkdir
  split
  · simp [View.put_self]
  · assumption

/-- On a tree that can be worked on the five directories are there after the `mkdirat` calls, with
everything else as it was. -/
theorem Workable.ensured_spec {V : View} (h : Workable V) (hV : V.Closed) (hroot : V [] = some .dir) :
    (ensured V).Closed ∧ ensured V [nUsr, nLib] = some .dir ∧ ensured V pArch = some .dir ∧
      ∀ p ∈ madeDirs, ensured V p ≠ none := by
  have hkeep : ∀ {U : View} {r : List Name} (q : List Name), U.Closed → U r ≠ none →
      U.mkdir q r ≠ none := fun q hU hr => by rwa [View.mkdir_of_ne_none hU q hr]
  have hdir : ∀ {U : View} {r : List Name} (q : List Name), U.Closed → U r = some .dir →
      U.mkdir q r = some .dir := fun q hU hr => by rw [View.mkdir_of_ne_none hU q (by simp [hr]), hr]
  unfold ensured
  rw [show [nUsr, nLib, nArch] = pArch from rfl]
  have husr : V.mkdir [nUsr] [nUsr] = some .dir := V.mkdir_self h.usr
  have c₁ : (V.mkdir [nUsr]).Closed := mkdir_closed hV (n := nUsr) rfl hroot
  have husrLib := V.mkdir_absent_or_dir [nUsr] h.usrLib
  have harch := V.mkdir_absent_or_dir [nUsr] h.arch
  generalize V.mkdir [nUsr] = V₁ at husr c₁ husrLib harch ⊢
  have c₂ : (V₁.mkdir [nUsr, nLib]).Closed := mkdir_closed c₁ (n := nLib) rfl husr
  have husr₂ := hdir [nUsr, nLib] c₁ husr
  have hlib : V₁.mkdir [nUsr, nLib] [nUsr, nLib] = some .dir := V₁.mkdir_self husrLib
  have harch := V₁.mkdir_absent_or_dir [nUsr, nLib] harch
  generalize V₁.mkdir [nUsr, nLib] = V₂ at husr₂ c₂ hlib harch ⊢
  have c₃ : (V₂.mkdir [nUsr, nLib64]).Closed := mkdir_closed c₂ (n := nLib64) rfl husr₂
  have husr₃ := hdir [nUsr, nLib64] c₂ husr₂
  have hlib₃ := hdir [nUsr, nLib64] c₂ hlib
  have h64 := mkdir_there V₂ [nUsr, nLib64]
  have harch := V₂.mkdir_absent_or_dir [nUsr, nLib64] harch
  generalize V₂.mkdir [nUsr, nLib64] = V₃ at husr₃ c₃ hlib₃ h64 harch ⊢
  have c₄ : (V₃.mkdir pArch).Closed := mkdir_closed c₃ (n := nArch) rfl hlib₃
  have husr₄ := hdir pArch c₃ husr₃
  have hlib₄ := hdir pArch c₃ hlib₃
  have h64₄ := hkeep pArch c₃ h64
  have harch₄ : V₃.mkdir pArch pArch = some .dir := V₃.mkdir_self harch
  generalize V₃.mkdir pArch = V₄ at husr₄ c₄ hlib₄ h64₄ harch₄ ⊢
  have harch₅ := hdir [nUsr, nLib, nModules] c₄ harch₄
  have hlib₅ := hdir [nUsr, nLib, nModules] c₄ hlib₄
  refine ⟨mkdir_closed c₄ (n := nModules) rfl hlib₄, hlib₅, harch₅, ?_⟩
  simp only [madeDirs, List.forall_mem_cons]
  refine ⟨?_, ?_, hkeep _ c₄ h64₄, ?_, mkdir_there _ _, fun _ hp => by cases hp⟩
  · exact hkeep _ c₄ (by simp [husr₄])
  · simp [hlib₅]
  · simp [harch₅]

/-- The tree before step 6: the directories are made, and `/lib` is gone if it was empty.
Nothing is merged. -/
noncomputable def prepared (V : View) : View := (ensured V).rmdir [nLib]

theorem prepared_of_not_lib (V : View) {r : List Name} (h : ¬ [nLib] <+: r) :
    prepared V r = ensured V r :=
  View.rmdir_of_not_below _ h

/-- `_start` makes directories below `/usr` only. -/
theorem ensured_below (V : View) {n : Name} (hn : n ≠ nUsr) :
    (ensured V).below [n] = V.below [n] := by
  funext q
  exact ensured_of_not_usr V (not_below_of_ne hn.symm _ _)

theorem full_prepared {V : View} : (prepared V).Full [nLib] ↔ V.Full [nLib] := by
  rw [prepared, View.full_rmdir, View.Full, ensured_below V (by decide),
    ensured_of_not_usr V (by decide), View.Full]

theorem full_prepared64 {V : View} : (prepared V).Full [nLib64] ↔ V.Full [nLib64] := by
  have hbelow : (prepared V).below [nLib64] = V.below [nLib64] := by
    funext q
    exact (prepared_of_not_lib V (not_below_of_ne (by decide) _ _)).trans
      (ensured_of_not_usr V (not_below_of_ne (by decide) _ _))
  have hroot : prepared V [nLib64] = V [nLib64] := congrFun hbelow []
  rw [View.Full, hbelow, hroot, View.Full]

section Boots

variable {env : Env} {w : World} {V : View} {I : World → Syscall → Prop} {ld ld231 : Option Bytes}

/-- Steps 4 and 5 with what comes before and after them. -/
theorem mergeAll_rescues (harm : env.abi = .arm64) (hno : env.choices.NoFaults)
    (hwhole : env.choices.NoShort) (R : Rootfs env V w) (hidle : Idle env w) (h : Workable V)
    (ram : RamFile env w nLdLinux ld) (ram231 : RamFile env w nLd231 ld231) (out : Int) :
    Prog.Eventually (kernel env) I (fun fuel => do mergeAll out fuel; rebuild out fuel) w
      fun _ w' => Rescued env ld ld231 (prepared V) w w' ∧
        (w.desc out = some .console → Announced env w') := by
  apply Prog.Eventually.bind (mergeAll_grows out)
  have merged : Prog.Eventually (kernel env) I (mergeAll out) w fun _ w' =>
      Leads env w (prepared V) w' ∧ ensured V [nUsr, nLib] = some .dir ∧
        ensured V pArch = some .dir := by
    refine ⟨1, fun fuel hfuel => ?_⟩
    obtain ⟨k, rfl⟩ : ∃ k, fuel = k + 1 := ⟨fuel - 1, by omega⟩
    apply ensures_print
    intro w₁ quiet₁
    have l₁ := R.quiet quiet₁
    apply Prog.Ensures.bind
    apply (ensureDirs_ensures hno l₁.rootfs h.usr h.usrLib).mono
    rintro _ w₂ ⟨l₂, hlib, harch⟩
    apply (l₂.rootfs.mergePhases_direct harm hno out k).mono
    exact fun _ w₃ l₃ => ⟨(l₁.trans l₂).trans l₃, hlib, harch h.arch⟩
  apply merged.mono
  rintro _ w₁ ⟨l, hlib, harch⟩
  have hfds : w₁.fds = w.fds := l.balanced.closed hno.noLeaks
  apply (rebuild_rescues hno hwhole l.rootfs (hidle.of_eq hfds)
    ((prepared_of_not_lib V (by decide)).trans hlib)
    ((prepared_of_not_lib V (by decide)).trans harch)
    (ram.since l.since) (ram231.since l.since) out).mono
  rintro _ w₂ ⟨rescued, hannounced⟩
  refine ⟨⟨rescued.unmounted, l.since.leaves.trans rescued.leaves, rescued.forest, rescued.lays⟩,
    fun hout => hannounced ?_⟩
  rw [World.desc_eq hfds, hout]

/-- A boot on arm64 without failing calls comes to its end, whatever is in `/lib_old` and
`/lib`. -/
theorem start_rescues (harm : env.abi = .arm64) (hno : env.choices.NoFaults)
    (hwhole : env.choices.NoShort) (B : Boot env V w)
    (hready : AppearsWithin env 15 (w.tick + 9)) (h : Workable V)
    (ram : RamFile env w nLdLinux ld) (ram231 : RamFile env w nLd231 ld231) :
    ∃ w', Prog.Returns (kernel env) start w .complete w' ∧
      Rescued env ld ld231 (prepared V) w w' ∧
      (env.choices.console = true → Announced env w') := by
  have hrun : Prog.Eventually (kernel env) (fun _ _ => True) start w fun halt w' =>
      halt = .complete ∧ Rescued env ld ld231 (prepared V) w w' ∧
        (env.choices.console = true → Announced env w') := by
    apply start_eventually hno B hready
    intro out w₁ R early hidle hout
    apply (mergeAll_rescues harm hno hwhole R hidle h (ram.early early (by decide) (by decide))
      (ram231.early early (by decide) (by decide)) out).mono
    rintro _ w' ⟨rescued, hannounced⟩
    exact ⟨⟨rescued.unmounted, early.leaves.trans rescued.leaves, rescued.forest, rescued.lays⟩,
      fun hc => hannounced (hout hc)⟩
  obtain ⟨halt, w', hreturns, rfl, hrest⟩ := hrun.returns fun _ _ _ => trivial
  exact ⟨w', hreturns, hrest⟩

end Boots

end Hub11.Recovery
