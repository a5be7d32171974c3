import Hub11.Posix.Outcomes
import Hub11.Recovery.Install

/-!
A whole run of `_start` without failures: the console, the wait for the disk, the
phases on the mounted tree and the `umount2` at the end.
-/

namespace Hub11.Recovery

open Hub11.Effect Hub11.Posix

/-- No descriptor is open on the disk, so that nothing stands in the way of the `umount2`. -/
def Idle (env : Env) (w : World) : Prop :=
  ∀ k i, (∃ born seen, w.fds k = some (.dir i born seen)) ∨ (∃ off, w.fds k = some (.file i off)) →
    i.dev ≠ env.diskRoot.dev

theorem Idle.diskInUse {env : Env} {w : World} (h : Idle env w) : w.diskInUse env = false := by
  rw [World.diskInUse, List.any_eq_false]
  intro k _
  cases hk : w.fds k with
  | none => simp
  | some d =>
      cases d with
      | dir i born seen => simpa using h k i (.inl ⟨born, seen, hk⟩)
      | file i off => simpa using h k i (.inr ⟨off, hk⟩)
      | console => simp

/-- The state in which the kernel starts `_start`: the disk holds the tree `V`, and
nothing is mounted yet. -/
structure Boot (env : Env) (V : View) (w : World) : Prop where
  unmounted : w.mount = none
  ramRoot : w.fs.isDir env.ramRoot = true
  ram : env.ramRoot.dev ≠ env.diskRoot.dev
  point : ∀ i, w.fs.child env.ramRoot nMnt = some i →
    w.fs.isDir i = true ∧ i.dev ≠ env.diskRoot.dev
  forest : Forest w.fs env.diskRoot.dev (diskTop env)
  view : w.fs.view env.diskRoot = V
  top : V [] = some .dir
  bound : ∀ k, w.nextFd ≤ k → w.fds k = none
  idle : Idle env w

/-- What happens before the disk is mounted: at most `/dev` and `/mnt` are made on the ram disk. -/
structure Early (env : Env) (w w' : World) : Prop where
  leaves : LeavesKept w.fs w'.fs
  ramdisk : ∀ n, n ≠ nDev → n ≠ nMnt → w'.fs.child env.ramRoot n = w.fs.child env.ramRoot n
  next : w.fs.next ≤ w'.fs.next

theorem Early.trans {env : Env} {w w' w'' : World} (h : Early env w w') (h' : Early env w' w'') :
    Early env w w'' where
  leaves := h.leaves.trans h'.leaves
  ramdisk n hdev hmnt := (h'.ramdisk n hdev hmnt).trans (h.ramdisk n hdev hmnt)
  next := Nat.le_trans h.next h'.next

/-- Files and links keep their contents, as they do later on. -/
theorem RamFile.early {env : Env} {w w' : World} {n : Name} {file : Option Bytes}
    (h : RamFile env w n file) (early : Early env w w') (hdev : n ≠ nDev) (hmnt : n ≠ nMnt) :
    RamFile env w' n file := by
  cases file with
  | none => exact (early.ramdisk n hdev hmnt).trans h
  | some data =>
      obtain ⟨i, hi, hnode⟩ := h
      refine ⟨i, (early.ramdisk n hdev hmnt).trans hi, ?_⟩
      rw [early.leaves i (by simp [hnode]) (by simp [FS.isDir, FS.entries, hnode]), hnode]

section Before

variable {env : Env} {w w' : World} {V : View}

theorem Boot.same (B : Boot env V w) (hfs : w'.fs = w.fs) (hmount : w'.mount = w.mount)
    (hbound : ∀ k, w'.nextFd ≤ k → w'.fds k = none) (hidle : Idle env w') :
    Boot env V w' ∧ Early env w w' := by
  constructor
  · exact ⟨hmount.trans B.unmounted, hfs ▸ B.ramRoot, B.ram, hfs ▸ B.point, hfs ▸ B.forest,
      hfs ▸ B.view, B.top, hbound, hidle⟩
  · refine ⟨?_, fun n _ _ => by rw [hfs], by rw [hfs]⟩
    rw [hfs]
    exact LeavesKept.refl _

theorem Idle.of_eq (h : Idle env w) (hfds : w'.fds = w.fds) : Idle env w' := by
  unfold Idle
  rw [hfds]
  exact h

theorem Boot.quiet (B : Boot env V w) (h : Quiet w w') : Boot env V w' ∧ Early env w w' :=
  B.same h.fs h.mount (by rw [h.fds, h.nextFd]; exact B.bound) (B.idle.of_eq h.fds)

/-- `mkdirat` of a top-level directory of the ram disk. -/
theorem Boot.mkdirat (hno : env.choices.NoFaults) (B : Boot env V w) {n : Name}
    (hn : n = nDev ∨ n = nMnt) :
    Boot env V (kernel env w (.mkdirat AT_FDCWD (absPath [n]))).1 ∧
      Early env w (kernel env w (.mkdirat AT_FDCWD (absPath [n]))).1 ∧
      (kernel env w (.mkdirat AT_FDCWD (absPath [n]))).1.fds = w.fds ∧
      (kernel env w (.mkdirat AT_FDCWD (absPath [n]))).1.fs.child env.ramRoot n ≠ none := by
  have tried : Tried env w (kernel env w (.mkdirat AT_FDCWD (absPath [n]))).1
      (kernel env w (.mkdirat AT_FDCWD (absPath [n]))).2.ret (w.fs.mkdir env.ramRoot n) :=
    kernel_mkdirat_of env rfl
  generalize (kernel env w (.mkdirat AT_FDCWD (absPath [n]))).1 = w₁ at tried ⊢
  unfold FS.mkdir FS.create at tried
  rw [if_pos B.ramRoot] at tried
  cases hc : w.fs.child env.ramRoot n with
  | some i =>
      rw [hc] at tried
      rcases tried with ⟨_, fs, hok, _⟩ | ⟨_, quiet, _⟩
      · cases hok
      · obtain ⟨B', early⟩ := B.quiet quiet
        refine ⟨B', early, quiet.fds, ?_⟩
        rw [quiet.fs, hc]
        simp
  | none =>
      rw [hc] at tried
      rcases tried with ⟨_, fs, hok, changed⟩ | ⟨_, _, herr⟩
      · cases hok
        have hnode : ∀ j, w.fs.node j ≠ none → j ≠ env.ramRoot →
            w₁.fs.node j = w.fs.node j := by
          intro j hj hne
          rw [changed.fs]
          exact FS.node_link hne hj
        have hchild : ∀ m, w₁.fs.child env.ramRoot m =
            if m = n then some (w.fs.fresh env.ramRoot.dev) else w.fs.child env.ramRoot m := by
          intro m
          rw [changed.fs, FS.child_link B.ramRoot (show (Node.dir env.ramRoot []).Bare from rfl)]
          simp
        have hdisk : ∀ p i, w.fs.descend env.diskRoot p = some i →
            w₁.fs.node i = w.fs.node i := by
          intro p i hp
          apply hnode i (B.forest.live (a := ()) hp)
          rintro rfl
          exact B.ram (B.forest.onDev (a := ()) hp)
        have hsame : ∀ a p i, w.fs.descend (diskTop env a) p = some i →
            w₁.fs.entries i = w.fs.entries i ∧ w₁.fs.obj i = w.fs.obj i := by
          intro _ p i hp
          have := hdisk p i hp
          simp [FS.entries, FS.obj, this]
        have hfresh : w₁.fs.isDir (w.fs.fresh env.ramRoot.dev) = true := by
          rw [← FS.obj_eq_dir_iff, changed.fs, FS.obj_link, if_pos rfl]
          rfl
        have hramdir : w₁.fs.isDir env.ramRoot = true := by
          rw [← FS.obj_eq_dir_iff, changed.fs, FS.obj_link, if_neg, FS.obj_eq_dir_iff]
          · exact B.ramRoot
          · apply w.fs.ne_fresh_of_node
            intro hnone
            simpa [FS.isDir, FS.entries, hnone] using B.ramRoot
        refine ⟨⟨changed.mount.trans B.unmounted, hramdir, B.ram, ?_, B.forest.congr hsame, ?_,
          B.top, ?_, B.idle.of_eq changed.fds⟩, ⟨?_, ?_, ?_⟩, changed.fds, ?_⟩
        · intro i hi
          rw [hchild] at hi
          split at hi
          · cases hi
            exact ⟨hfresh, B.ram⟩
          · obtain ⟨hdir, hdev⟩ := B.point i hi
            refine ⟨?_, hdev⟩
            by_cases hroot : i = env.ramRoot
            · rw [hroot]
              exact hramdir
            · rw [Within.isDir_eq (hnode i _ hroot)]
              · exact hdir
              · intro hnone
                simp [FS.isDir, FS.entries, hnone] at hdir
        · rw [← B.view]
          exact FS.view_congr (hsame ())
        · rw [changed.fds, changed.nextFd]
          exact B.bound
        · intro i hi hleaf
          apply hnode i hi
          rintro rfl
          rw [B.ramRoot] at hleaf
          cases hleaf
        · intro m hdev hmnt
          rw [hchild, if_neg]
          rcases hn with rfl | rfl
          · exact hdev
          · exact hmnt
        · rw [changed.fs]
          exact Nat.le_succ _
        · rw [hchild, if_pos rfl]
          simp
      · obtain ⟨e, he⟩ := herr hno
        cases he

/-- Steps 1 and 2 make `/dev` on the ram disk and open the console. The disk is not touched. -/
theorem openOutput_ensures {I : World → Syscall → Prop} (hno : env.choices.NoFaults) (B : Boot env V w) :
    Prog.Ensures (kernel env) I openOutput w fun out w' =>
      Boot env V w' ∧ Early env w w' ∧ w'.tick = w.tick + 3 ∧
        (env.choices.console = true → w'.desc out = some .console) := by
  obtain ⟨B₁, early₁, _, _⟩ := B.mkdirat hno (.inl rfl)
  apply Prog.ensures_call
  intro _
  generalize hw₁ : (kernel env w (.mkdirat AT_FDCWD (absPath [nDev]))).1 = w₁ at B₁ early₁
  have htick₁ : w₁.tick = w.tick + 1 := by
    rw [← hw₁]
    exact kernel_tick env w _
  have quiet₂ : Quiet w₁ (kernel env w₁ .mountDevtmpfs).1 := by
    simp only [kernel, World.attempt, hno w₁.tick, World.exec]
    exact ⟨rfl, rfl, rfl, rfl⟩
  apply Prog.ensures_call
  intro _
  have htick₂ := kernel_tick env w₁ .mountDevtmpfs
  generalize (kernel env w₁ .mountDevtmpfs).1 = w₂ at quiet₂ htick₂
  obtain ⟨B₂, early₂⟩ := B₁.quiet quiet₂
  apply Prog.ensures_call
  intro _
  apply Prog.ensures_pure
  have htick₃ := kernel_tick env w₂ .openConsole
  cases hc : env.choices.console with
  | true =>
      have hopen : w₂.exec env .openConsole = .ok (w₂.openDesc .console) := by
        simp [World.exec, hc]
      obtain ⟨hret, opened⟩ := kernel_opened env (hno _) hopen
      generalize kernel env w₂ .openConsole = kr at hret opened htick₃
      obtain ⟨w₃, r⟩ := kr
      dsimp only at hret opened htick₃ ⊢
      have hidle : Idle env w₃ := by
        intro k i hk
        rw [opened.fds] at hk
        by_cases hk' : k = w₂.nextFd
        · simp [hk'] at hk
        · simp only [hk', if_false] at hk
          exact B₂.idle k i hk
      obtain ⟨B₃, early₃⟩ := B₂.same opened.fs opened.mount (opened.bound B₂.bound) hidle
      refine ⟨B₃, (early₁.trans early₂).trans early₃, by omega, fun _ => ?_⟩
      rw [hret, if_pos (Int.natCast_nonneg _)]
      change w₃.fds w₂.nextFd = _
      rw [opened.fds]
      exact if_pos rfl
  | false =>
      have hfail : w₂.exec env .openConsole = .error .ENOENT := by
        simp [World.exec, hc]
      obtain ⟨hret, quiet₃⟩ := kernel_error env _ rfl hfail
      obtain ⟨B₃, early₃⟩ := B₂.quiet quiet₃
      exact ⟨B₃, (early₁.trans early₂).trans early₃, by omega, fun h => by cases h⟩

/-- Mounting the disk turns it into the tree below `/mnt`. -/
theorem Boot.mounted (B : Boot env V w) {mnt : Ino} (hmnt : w.fs.child env.ramRoot nMnt = some mnt)
    (hfs : w'.fs = w.fs) (hfds : w'.fds = w.fds) (hnext : w'.nextFd = w.nextFd)
    (hmount : w'.mount = some (mnt, env.diskRoot)) :
    Rootfs env V w' ∧ Early env w w' ∧ Idle env w' := by
  obtain ⟨hdir, hdev⟩ := B.point mnt hmnt
  refine ⟨⟨⟨⟨mnt, ?_, ?_, hmount, hdev⟩, B.ram⟩, hfs ▸ B.forest, hfs ▸ B.view, B.top, ?_⟩, ?_,
    B.idle.of_eq hfds⟩
  · rw [hfs]
    exact hmnt
  · rw [hfs]
    exact hdir
  · rw [hfds, hnext]
    exact B.bound
  · refine ⟨?_, fun n _ _ => by rw [hfs], by rw [hfs]⟩
    rw [hfs]
    exact LeavesKept.refl _

/-- One attempt to mount the disk. -/
theorem Boot.mountDisk (hno : env.choices.NoFaults) (B : Boot env V w)
    (hmnt : w.fs.child env.ramRoot nMnt ≠ none) :
    (env.choices.diskReady w.tick = true →
      (kernel env w (.mountDisk (absPath [nMnt]))).2.ret = 0 ∧
      Rootfs env V (kernel env w (.mountDisk (absPath [nMnt]))).1 ∧
      Early env w (kernel env w (.mountDisk (absPath [nMnt]))).1 ∧
      Idle env (kernel env w (.mountDisk (absPath [nMnt]))).1 ∧
      (kernel env w (.mountDisk (absPath [nMnt]))).1.fds = w.fds) ∧
    (env.choices.diskReady w.tick = false →
      (kernel env w (.mountDisk (absPath [nMnt]))).2.ret ≠ 0 ∧
      Quiet w (kernel env w (.mountDisk (absPath [nMnt]))).1) := by
  obtain ⟨mnt, hc⟩ := Option.ne_none_iff_exists'.mp hmnt
  obtain ⟨hdir, _⟩ := B.point mnt hc
  have hresolve : w.resolve env AT_FDCWD (absPath [nMnt]) = .found mnt := by
    change w.fs.lookup (w.space env) env.ramRoot [.name nMnt] = _
    rw [FS.lookup_of_child hc (FS.not_symlink_of_isDir hdir)]
    simp [World.space, Space.cross, B.unmounted]
  constructor
  · intro hready
    have hatt : w.attempt env (.mountDisk (absPath [nMnt])) =
        .ok ({ w with mount := some (mnt, env.diskRoot) }, { ret := 0 }) := by
      simp [World.attempt, hno w.tick, World.exec, hresolve, hdir, B.unmounted, hready]
    unfold kernel
    rw [hatt]
    obtain ⟨R, early, hidle⟩ : Rootfs env V (World.mk w.fs (some (mnt, env.diskRoot)) w.fds
        w.nextFd w.log (w.tick + 1)) ∧ Early env w _ ∧ Idle env _ :=
      B.mounted hc rfl rfl rfl rfl
    exact ⟨rfl, R, early, hidle, rfl⟩
  · intro hready
    have hfail : w.exec env (.mountDisk (absPath [nMnt])) = .error .ENODEV := by
      simp [World.exec, hresolve, hready]
    obtain ⟨hret, quiet⟩ := kernel_error env _ rfl hfail
    exact ⟨by omega, quiet⟩

/-- The disk is there at one of the next `k` attempts, three calls apart. -/
def AppearsWithin (env : Env) (k tick : Nat) : Prop :=
  ∃ a, a < k ∧ env.choices.diskReady (tick + 3 * a) = true

/-- The loop of step 3 mounts the disk if it appears in time; what happens on the way is `Early`. -/
theorem waitForDisk_ensures {I : World → Syscall → Prop} (hno : env.choices.NoFaults) (B : Boot env V w)
    (hmnt : w.fs.child env.ramRoot nMnt ≠ none) {k : Nat} (hready : AppearsWithin env k w.tick)
    (out : Int) (ret : Int) :
    Prog.Ensures (kernel env) I (waitForDisk out k ret) w fun ret w' =>
      ret = 0 ∧ Rootfs env V w' ∧ Early env w w' ∧ Idle env w' ∧ w'.fds = w.fds := by
  induction k generalizing w ret with
  | zero =>
      obtain ⟨a, ha, _⟩ := hready
      omega
  | succ k ih =>
      obtain ⟨hyes, hnot⟩ := B.mountDisk hno hmnt
      apply ensures_do
      intro _
      cases hnow : env.choices.diskReady w.tick with
      | true =>
          obtain ⟨hret, R, early, hidle, hfds⟩ := hyes hnow
          rw [if_pos hret]
          exact Prog.ensures_pure ⟨hret, R, early, hidle, hfds⟩
      | false =>
          obtain ⟨hret, quiet⟩ := hnot hnow
          have htick := kernel_tick env w (.mountDisk (absPath [nMnt]))
          rw [if_neg hret]
          generalize (kernel env w (.mountDisk (absPath [nMnt]))).1 = w₁ at quiet htick ⊢
          have quiet₂ := kernel_puts env w₁ out (.lit "    Waiting for /dev/mmcblk0p6...\n")
          have htick₂ := kernel_tick env w₁ (.puts out (.lit "    Waiting for /dev/mmcblk0p6...\n"))
          apply Prog.ensures_call
          intro _
          generalize (kernel env w₁ (.puts out
            (.lit "    Waiting for /dev/mmcblk0p6...\n"))).1 = w₂ at quiet₂ htick₂ ⊢
          have quiet₃ : Quiet w₂ (kernel env w₂ (.nanosleep 1)).1 := by
            simp only [kernel, World.attempt, hno w₂.tick, World.exec]
            exact ⟨rfl, rfl, rfl, rfl⟩
          have htick₃ := kernel_tick env w₂ (.nanosleep 1)
          apply Prog.ensures_call
          intro _
          generalize (kernel env w₂ (.nanosleep 1)).1 = w₃ at quiet₃ htick₃ ⊢
          have quiet' := (quiet.trans quiet₂).trans quiet₃
          obtain ⟨B', early⟩ := B.quiet quiet'
          have hready' : AppearsWithin env k w₃.tick := by
            obtain ⟨a, ha, ht⟩ := hready
            cases a with
            | zero =>
                rw [Nat.mul_zero, Nat.add_zero, hnow] at ht
                cases ht
            | succ a =>
                refine ⟨a, by omega, ?_⟩
                rw [← ht]
                congr 1
                omega
          apply (ih B' (by rw [quiet'.fs]; exact hmnt) hready' _).mono
          rintro ret' w' ⟨hret', R, early', hidle, hfds⟩
          exact ⟨hret', R, early.trans early', hidle, hfds.trans quiet'.fds⟩

/-- Step 3 as a whole: the disk is mounted on `/mnt`, and its tree is as it was. -/
theorem mountRootfs_ensures {I : World → Syscall → Prop} (hno : env.choices.NoFaults) (B : Boot env V w)
    (hready : AppearsWithin env 15 (w.tick + 6)) (out : Int) :
    Prog.Ensures (kernel env) I (mountRootfs out) w fun ret w' =>
      ret = 0 ∧ Rootfs env V w' ∧ Early env w w' ∧ Idle env w' ∧ w'.fds = w.fds := by
  apply Prog.Ensures.bind
  apply (printAll_ensures out _).mono
  rintro _ w₁ ⟨quiet₁, htick₁, _⟩
  obtain ⟨B₁, early₁⟩ := B.quiet quiet₁
  obtain ⟨B₂, early₂, hfds₂, hmnt₂⟩ := B₁.mkdirat hno (.inr rfl)
  have htick₂ := kernel_tick env w₁ (.mkdirat AT_FDCWD (absPath [nMnt]))
  apply Prog.ensures_call
  intro _
  generalize (kernel env w₁ (.mkdirat AT_FDCWD (absPath [nMnt]))).1 = w₂
    at B₂ early₂ hfds₂ hmnt₂ htick₂ ⊢
  have quiet₃ := kernel_puts env w₂ out
    (.lit ">>> Waiting for eMMC and mounting /dev/mmcblk0p6 on /mnt...\n")
  have htick₃ := kernel_tick env w₂ (.puts out
    (.lit ">>> Waiting for eMMC and mounting /dev/mmcblk0p6 on /mnt...\n"))
  apply Prog.ensures_call
  intro _
  generalize (kernel env w₂ (.puts out
    (.lit ">>> Waiting for eMMC and mounting /dev/mmcblk0p6 on /mnt...\n"))).1 = w₃
    at quiet₃ htick₃ ⊢
  obtain ⟨B₃, early₃⟩ := B₂.quiet quiet₃
  have hticks : w₃.tick = w.tick + 6 := by
    rw [htick₃, htick₂, htick₁]
    rfl
  apply (waitForDisk_ensures hno B₃ (by rw [quiet₃.fs]; exact hmnt₂)
    (by rw [hticks]; exact hready) out (-1)).mono
  rintro ret w' ⟨hret, R, early, hidle, hfds⟩
  exact ⟨hret, R, ((early₁.trans early₂).trans early₃).trans early, hidle,
    hfds.trans (quiet₃.fds.trans (hfds₂.trans quiet₁.fds))⟩

end Before

/-! ### The end of the run -/

section After

variable {env : Env} {w : World} {V : View} {I : World → Syscall → Prop}

/-- Step 8 changes nothing but the log, and prints the message of success if the linker can be
reached. -/
theorem verifyLinker_ensures (hno : env.choices.NoFaults) (R : Rootfs env V w) (out : Int) :
    Prog.Ensures (kernel env) I (verifyLinker out) w fun _ w' => Leads env w V w' ∧
      (∀ i data, w.resolve env AT_FDCWD (mntPath [nLib, nLdLinux]) = .found i →
        w.fs.node i = some (.file data) → w.desc out = some .console →
        .lit successLine ∈ w'.log) := by
  apply ensures_print
  intro w₁ quiet₁
  have l₁ := R.quiet quiet₁
  apply ensures_do
  intro _
  rcases kernel_openat env w₁ AT_FDCWD (mntPath [nLib, nLdLinux]) O_RDONLY (by simp)
    with ⟨hret, quiet₂⟩ | ⟨desc, hret, opened⟩
  · rw [if_neg (by omega)]
    apply ensures_print_last
    intro w₃ quiet₃
    refine ⟨R.quiet ((quiet₁.trans quiet₂).trans quiet₃), fun i data hres hdata _ => ?_⟩
    -- a regular file is found, so the open cannot have failed
    have hopen : w₁.exec env (.openat AT_FDCWD (mntPath [nLib, nLdLinux]) O_RDONLY) =
        .ok (w₁.openDesc (.file i 0)) := by
      have hres₁ : w₁.resolve env AT_FDCWD (mntPath [nLib, nLdLinux]) = .found i := by
        rw [World.resolve_eq env quiet₁.fs quiet₁.fds quiet₁.mount, hres]
      have hdata₁ : w₁.fs.node i = some (.file data) := by rw [quiet₁.fs, hdata]
      simp only [World.exec, World.openPath, hres₁, World.openNode, hdata₁, Abi.mode_rdonly]
    have := (kernel_opened env (hno _) hopen).1
    omega
  · rw [if_pos (by omega), hret]
    generalize (kernel env w₁ (.openat AT_FDCWD (mntPath [nLib, nLdLinux]) O_RDONLY)).1 = w₂
      at opened ⊢
    have quiet₃ := kernel_puts env w₂ out (.lit successLine)
    apply Prog.ensures_call
    intro _
    apply Prog.ensures_call
    intro _
    apply Prog.ensures_pure
    obtain ⟨R₂, since₂⟩ := l₁.rootfs.opened opened
    have l := l₁.rootfs.opened_closed opened (R₂.quiet quiet₃)
    refine ⟨l₁.trans l, fun i data _ _ hout => ?_⟩
    have hout₂ : w₂.desc out = some .console :=
      opened.desc l₁.rootfs.bound (by rw [World.desc_eq quiet₁.fds, hout])
    have hlog := kernel_puts_log env hno hout₂ (.lit successLine)
    apply (kernel_log env _ _).subset
    rw [hlog]
    simp

/-- Steps 9 and 10: the disk is unmounted, as nothing on it is open. -/
theorem finish_unmounts (hno : env.choices.NoFaults) (R : Rootfs env V w) (hidle : Idle env w)
    (out : Int) :
    Prog.Ensures (kernel env) I (finish out) w fun _ w' => w'.fs = w.fs ∧ w'.mount = none ∧
      (w.desc out = some .console → .lit bannerLine ∈ w'.log) := by
  apply ensures_print
  intro w₁ quiet₁
  have quiet₂ : Quiet w₁ (kernel env w₁ .sync).1 := by
    simp only [kernel, World.attempt, hno w₁.tick, World.exec]
    exact ⟨rfl, rfl, rfl, rfl⟩
  apply Prog.ensures_call
  intro _
  generalize (kernel env w₁ .sync).1 = w₂ at quiet₂
  apply ensures_print
  intro w₃ quiet₃
  have quiet := (quiet₁.trans quiet₂).trans quiet₃
  have R₃ := (R.quiet quiet).rootfs
  have hunmount : w₃.exec env (.umount2 (absPath [nMnt])) =
      .ok ({ w₃ with mount := none }, { ret := 0 }) := by
    have hresolve : w₃.resolve env AT_FDCWD (absPath [nMnt]) = .found env.diskRoot :=
      (R₃.mounted.lookup []).trans (FS.lookup_nil _)
    obtain ⟨mnt, _, _, hmount, _⟩ := R₃.mounted.point
    simp [World.exec, hresolve, hmount, (hidle.of_eq quiet.fds).diskInUse]
  have hkernel : (kernel env w₃ (.umount2 (absPath [nMnt]))).1 =
      { w₃ with mount := none, tick := w₃.tick + 1 } := by
    simp only [kernel, World.attempt, hno w₃.tick, hunmount]
  apply Prog.ensures_call
  intro _
  rw [hkernel]
  generalize hw₄ : ({ w₃ with mount := none, tick := w₃.tick + 1 } : World) = w₄
  have quiet₅ : Quiet w₄ (kernel env w₄ .sync).1 := by
    simp only [kernel, World.attempt, hno w₄.tick, World.exec]
    exact ⟨rfl, rfl, rfl, rfl⟩
  apply Prog.ensures_call
  intro _
  generalize (kernel env w₄ .sync).1 = w₅ at quiet₅
  apply (printAll_ensures out _).mono
  rintro _ w₆ ⟨quiet₆, _, hlog⟩
  have quiet₄₆ := quiet₅.trans quiet₆
  subst hw₄
  refine ⟨quiet₄₆.fs.trans quiet.fs, quiet₄₆.mount, fun hout => ?_⟩
  rw [hlog hno]
  · simp [closingLines]
  · rw [World.desc_eq (quiet₅.fds.trans quiet.fds), hout]

end After

/-! ### Bounds -/

theorem mergeAll_grows (out : Int) : Prog.Grows fun fuel => mergeAll out fuel :=
  (Prog.Grows.const _).bind fun _ => (Prog.Grows.const _).bind fun _ => mergePhases_grows out

theorem rebuild_grows (out : Int) : Prog.Grows fun fuel => rebuild out fuel :=
  (Prog.Grows.const _).bind fun _ => (installLinkers_grows out).bind fun _ => Prog.Grows.const _

theorem start_grows : Prog.Grows start := by
  intro fuel
  apply (Prog.Below.refl _).bind
  intro out
  apply (Prog.Below.refl _).bind
  intro ret
  split
  · exact Prog.Below.refl _
  · apply (mergeAll_grows out fuel).bind
    intro _
    apply (rebuild_grows out fuel).bind
    intro _
    exact Prog.Below.refl _

/-- The run up to the mount, and what comes after it on the mounted tree. -/
theorem start_eventually {env : Env} {w : World} {V : View} {I : World → Syscall → Prop}
    {Q : World → Prop} (hno : env.choices.NoFaults) (B : Boot env V w)
    (hready : AppearsWithin env 15 (w.tick + 9))
    (h : ∀ out w₁, Rootfs env V w₁ → Early env w w₁ → Idle env w₁ →
      (env.choices.console = true → w₁.desc out = some .console) →
      Prog.Eventually (kernel env) I (fun fuel => do mergeAll out fuel; rebuild out fuel) w₁
        fun _ w' => Q w') :
    Prog.Eventually (kernel env) I start w fun halt w' => halt = .complete ∧ Q w' := by
  apply Prog.Eventually.bind (Prog.Grows.const _)
  apply Prog.eventually_of_ensures
  apply (openOutput_ensures hno B).mono
  rintro out w₁ ⟨B₁, early₁, htick₁, hout⟩
  apply Prog.Eventually.bind (Prog.Grows.const _)
  apply Prog.eventually_of_ensures
  apply (mountRootfs_ensures hno B₁ (by rw [htick₁]; exact hready) out).mono
  rintro ret w₂ ⟨hret, R, early₂, hidle, hfds⟩
  apply eventually_neg (by simp [hret])
  have hassoc : (fun fuel => do mergeAll out fuel; rebuild out fuel; return Halt.complete) =
      fun fuel => (do mergeAll out fuel; rebuild out fuel) >>= fun _ => pure Halt.complete :=
    funext fun fuel => (Prog.bind_assoc _ _ _).symm
  rw [hassoc]
  apply Prog.Eventually.bind ((mergeAll_grows out).bind fun _ => rebuild_grows out)
  have hconsole : env.choices.console = true → w₂.desc out = some .console := fun hc => by
    rw [World.desc_eq hfds, hout hc]
  apply (h out w₂ R (early₁.trans early₂) hidle hconsole).mono
  intro _ w₃ hQ
  apply Prog.eventually_of_ensures
  exact Prog.ensures_pure ⟨rfl, hQ⟩

section Sample

/-- Nothing is open and nothing is mounted. -/
def freshWorld (fs : FS) : World where
  fs := fs
  mount := none
  fds _ := none
  nextFd := 0
  log := []
  tick := 0

/-- No failures, one byte at a time, and a disk that appears at the second attempt. -/
def patientEnv : Env where
  abi := .arm64
  ramRoot := ⟨0, 0⟩
  diskRoot := ⟨1, 10⟩
  choices :=
    { fault := fun _ => none
      leak := fun _ => false
      order := fun _ => [.name nModules, .name nDev]
      chunk := fun _ => 1
      short := fun _ => none
      diskReady := fun t => 12 ≤ t
      direct := fun _ => true
      console := true }

/-- The table holds a ram disk `0` without a `/mnt` and a disk `1` that is a tree. It can be checked
by looking at a finite list of places. -/
def Bootable (fs : FS) : Prop :=
  fs.isDir ⟨0, 0⟩ = true ∧ fs.child ⟨0, 0⟩ nMnt = none ∧
    (fs.Listed 5 1 fun _ : Unit => ⟨1, 10⟩) ∧ fs.view ⟨1, 10⟩ [] = some .dir

instance (fs : FS) : Decidable (Bootable fs) := inferInstanceAs (Decidable (_ ∧ _ ∧ _ ∧ _))

/-- A run from such a state begins with the disk `1` and the ram disk `0`. -/
theorem freshWorld_boot {fs : FS} (env : Env) (hram : env.ramRoot = ⟨0, 0⟩)
    (hdisk : env.diskRoot = ⟨1, 10⟩) (h : Bootable fs) :
    Boot env (fs.view ⟨1, 10⟩) (freshWorld fs) where
  unmounted := rfl
  ramRoot := hram ▸ h.1
  ram := by rw [hram, hdisk]; decide
  point i hi := by
    rw [hram] at hi
    cases h.2.1.symm.trans hi
  forest := by
    unfold diskTop
    rw [hdisk]
    exact .of_places h.2.2.1
  view := by rw [hdisk]; rfl
  top := h.2.2.2
  bound _ _ := rfl
  idle k i h := by
    rcases h with ⟨_, _, h⟩ | ⟨_, h⟩ <;> cases h

end Sample

end Hub11.Recovery
