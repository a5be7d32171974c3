import Hub11.Recovery.Boot
import Hub11.Recovery.Direct
import Hub11.Recovery.Obstacles

/-!
The two links at the end of a run of `_start`, on any tree.

Step 6 takes away what is at `/lib` and at `/lib64` and puts a link in its place. A
directory with something in it stays, and nobody looks at the results: whether the links are
there when the banner is printed depends on what is in the way at that time. On arm64 the
merges empty nothing, so that can be told from the tree that `_start` is given. Neither links
nor clashes are excluded here, so all that is used of the table is that an entry stays on its
device.
-/

namespace Hub11.Recovery

open Hub11.Effect Hub11.Posix

/-! ### What every call keeps -/

/-- Entries do not leave their device, and the root of the disk is no entry. This is all that is
used of the table; links, clashes and directories with two names are allowed. -/
structure Filed (env : Env) (fs : FS) : Prop where
  root : fs.isDir env.diskRoot = true
  entries : ∀ d n i, fs.child d n = some i → i.dev = d.dev ∧ i ≠ env.diskRoot

/-- The disk is mounted, and both devices are in order. -/
structure Settled (env : Env) (w : World) : Prop where
  mounted : Mounted env w
  filed : Filed env w.fs

section Calls

variable {env : Env} {w w' : World} {op : Syscall}

theorem Filed.edit {fs fs' : FS} {busy : Option Ino} (F : Filed env fs) (h : fs.Edit busy fs') :
    Filed env fs' where
  root := by
    rcases h.isDir_cases F.root with hdir | ⟨_, _, d, n, hlisted⟩
    · exact hdir
    · exact absurd rfl (F.entries d n _ hlisted).2
  entries := by
    intro d n i hi
    rcases h.child_cases hi with hold | rfl | ⟨s, m, hdev, hmoved⟩
    · exact F.entries d n i hold
    · refine ⟨rfl, Ne.symm (fs.ne_fresh_of_node ?_ _)⟩
      intro hnone
      simpa [FS.isDir, FS.entries, hnone] using F.root
    · obtain ⟨hsame, hne⟩ := F.entries s m i hmoved
      exact ⟨hsame.trans hdev, hne⟩

/-- Entries stay on their device over a whole run, whatever calls are made. -/
theorem Filed.run {α : Type} (F : Filed env w.fs) (p : Sys α) :
    Filed env (p.run (kernel env) w).2.fs := by
  apply Prog.run_rel (kernel env) (r := fun w w' => Filed env w.fs → Filed env w'.fs)
    (fun _ h => h) (fun h h' hF => h' (h hF)) ?_ p w F
  intro w op hF
  obtain ⟨w', houtcome, heq⟩ := kernel_outcome env w op
  rw [heq]
  exact hF.edit houtcome.edit

/-- Calls that leave the disk mounted and do not print the banner. -/
def Working : Syscall → Prop
  | .umount2 _ => False
  | .puts _ (.lit s) => s ≠ bannerLine
  | _ => True

theorem mount_of_outcome (h : Outcome env w op w') (hop : Working op) {m : Ino × Ino}
    (hm : w.mount = some m) : w'.mount = some m := by
  cases h with
  | mount hres hdir hnone =>
      rw [hm] at hnone
      cases hnone
  | umount => exact absurd hop id
  | _ => exact hm

/-- Neither `/mnt` nor the directory it is in can go while the disk is mounted. -/
theorem Mounted.edit (h : Mounted env w) (hedit : w.fs.Edit (w.space env).busy w'.fs)
    (hmount : w'.mount = w.mount) : Mounted env w' := by
  obtain ⟨⟨mnt, hc, hdir, hm, hdev⟩, ram⟩ := h
  have hbusy : (w.space env).busy = some mnt := by
    simp [World.space, Space.busy, hm]
  have hram : w'.fs.isDir env.ramRoot = true := by
    rcases hedit.isDir_cases (w.fs.isDir_of_child hc) with hdir' | ⟨hempty, _⟩
    · exact hdir'
    · rw [w.fs.child_of_entries (w.fs.isEmptyDir_iff.mp hempty)] at hc
      cases hc
  have hmnt : w'.fs.isDir mnt = true := by
    rcases hedit.isDir_cases hdir with hdir' | ⟨_, hfree, _⟩
    · exact hdir'
    · exact absurd hbusy hfree
  exact ⟨⟨mnt, hedit.child_busy hc hdir hbusy hram, hmnt, hmount.trans hm, hdev⟩, ram⟩

/-- A call that is not the `umount2` leaves the disk mounted and both devices in order. -/
theorem Settled.step (h : Settled env w) (hop : Working op) : Settled env (kernel env w op).1 := by
  obtain ⟨w', houtcome, heq⟩ := kernel_outcome env w op
  have hmount : w'.mount = w.mount := by
    obtain ⟨mnt, _, _, hm, _⟩ := h.mounted.point
    rw [hm]
    exact mount_of_outcome houtcome hop hm
  rw [heq]
  exact ⟨h.mounted.edit houtcome.edit hmount, h.filed.edit houtcome.edit⟩

/-- So does a run of such calls. -/
theorem Settled.run {α : Type} {p : Sys α} (h : Settled env w) (hp : p.Issues Working) :
    Settled env (p.run (kernel env) w).2 :=
  hp.invariant (fun _ _ hop hs => hs.step hop) h

/-- The banner gets into the log only by a call that prints it. -/
theorem banner_of_step (hop : Working op) (h : .lit bannerLine ∉ w.log) :
    .lit bannerLine ∉ (kernel env w op).1.log := by
  obtain ⟨w', houtcome, heq⟩ := kernel_outcome env w op
  rw [heq]
  cases houtcome with
  | @puts fd t =>
      cases t with
      | lit s =>
          have hs : bannerLine ≠ s := Ne.symm hop
          simpa [hs] using h
      | name c => simpa using h
  | _ => exact h

variable (env) in
theorem banner_of_run {α : Type} {p : Sys α} (hp : p.Issues Working) (h : .lit bannerLine ∉ w.log) :
    .lit bannerLine ∉ (p.run (kernel env) w).2.log :=
  hp.invariant (M := kernel env) (I := fun w' : World => .lit bannerLine ∉ w'.log)
    (fun _ _ hop hs => banner_of_step hop hs) h

end Calls

/-! ### The calls of each phase -/

section Issues

variable {P : Syscall → Prop} {α : Type}

theorem issues_call {op : Syscall} (h : P op) : (call op).Issues P :=
  (Prog.issues_perform h).bind fun _ => trivial

theorem issues_after {op : Syscall} {p : Sys α} (h : P op) (hp : p.Issues P) :
    (do let _ ← call op; p).Issues P :=
  (issues_call h).bind fun _ => hp

theorem issues_last {op : Syscall} (h : P op) : (do let _ ← call op : Sys Unit).Issues P :=
  issues_after h trivial

theorem issues_onlyIf {c : Prop} [Decidable c] {p : Sys Unit} (hp : p.Issues P) :
    (onlyIf c p).Issues P := by
  unfold onlyIf
  split
  · exact hp
  · trivial

theorem issues_ite {c : Prop} [Decidable c] {p q : Sys α} (hp : p.Issues P) (hq : q.Issues P) :
    (if c then p else q).Issues P := by
  split
  · exact hp
  · exact hq

theorem issues_printAll {out : Int} {texts : List String} (h : ∀ s ∈ texts, P (.puts out (.lit s))) :
    (printAll out texts).Issues P := by
  unfold printAll
  induction texts with
  | nil => trivial
  | cons s texts ih =>
      apply (issues_last (h s List.mem_cons_self)).bind
      intro _
      exact ih fun t ht => h t (List.mem_cons_of_mem _ ht)

theorem copyLoop_issues (hread : ∀ fd k, P (.read fd k)) (hwrite : ∀ fd buf, P (.write fd buf))
    (fuel : Nat) (inFd outFd : Int) : (copyLoop fuel inFd outFd).Issues P := by
  induction fuel with
  | zero => trivial
  | succ fuel ih =>
      apply (Prog.issues_perform (hread inFd 4096)).bind
      intro r
      exact issues_ite (issues_after (hwrite _ _) ih) trivial

end Issues

theorem mergeSubdir_issues {recurse : Int → Int → Sys Unit} (h : ∀ s d, (recurse s d).Issues Working)
    (srcFd dstFd : Int) (d : Comp) : (mergeSubdir recurse srcFd dstFd d).Issues Working := by
  apply (issues_call trivial).bind
  intro subSrc
  apply issues_after trivial
  apply (issues_call trivial).bind
  intro subDst
  apply (issues_onlyIf (h subSrc subDst)).bind
  intro _
  apply (issues_onlyIf (issues_last trivial)).bind
  intro _
  apply (issues_onlyIf (issues_last trivial)).bind
  intro _
  exact issues_last trivial

theorem mergeDir_issues (out : Int) (fuel : Nat) (srcFd dstFd : Int) {indent : String}
    (hindent : indent ≠ bannerLine) : (mergeDir out fuel srcFd dstFd indent).Issues Working := by
  induction fuel generalizing srcFd dstFd indent with
  | zero => trivial
  | succ fuel ih =>
      apply (Prog.issues_perform trivial).bind
      intro r
      refine issues_ite ?_ trivial
      apply (Prog.Issues.forM (fun d => ?_) r.dents).bind
      · intro _
        exact ih srcFd dstFd hindent
      · refine issues_ite ?_ trivial
        apply (issues_last hindent).bind
        intro _
        apply (issues_last (by simp [Working, bannerLine])).bind
        intro _
        apply (issues_last trivial).bind
        intro _
        apply (issues_call trivial).bind
        intro ret
        apply issues_ite (issues_last (by simp [Working, bannerLine]))
        apply (issues_last (by simp [Working, bannerLine])).bind
        intro _
        exact mergeSubdir_issues (fun s d => ih s d (by simp [bannerLine])) srcFd dstFd d

theorem mergeFrom_issues (out : Int) (fuel : Nat) (srcFd dstLib : Int) :
    (mergeFrom out fuel srcFd dstLib).Issues Working := by
  apply (mergeDir_issues out fuel srcFd dstLib (by simp [bannerLine])).bind
  intro _
  exact issues_last trivial

theorem mergeAll_issues (out : Int) (fuel : Nat) : (mergeAll out fuel).Issues Working := by
  apply (issues_last (by simp [Working, bannerLine])).bind
  intro _
  have dirs : ensureDirs.Issues Working :=
    issues_after trivial <| issues_after trivial <| issues_after trivial <|
      issues_after trivial <| issues_last trivial
  apply dirs.bind
  intro _
  apply (issues_call trivial).bind
  intro dstLib
  have old : (mergeLibOld out fuel dstLib).Issues Working := by
    apply (issues_call trivial).bind
    intro oldLib
    refine issues_ite ?_ trivial
    apply (issues_last (by simp [Working, bannerLine])).bind
    intro _
    apply (mergeFrom_issues out fuel oldLib dstLib).bind
    intro _
    exact issues_last trivial
  have lib : (mergeLib out fuel dstLib).Issues Working := by
    apply (Prog.issues_perform trivial).bind
    intro st
    refine issues_ite ?_ trivial
    apply (issues_last (by simp [Working, bannerLine])).bind
    intro _
    apply (issues_call trivial).bind
    intro curLib
    apply (issues_onlyIf (mergeFrom_issues out fuel curLib dstLib)).bind
    intro _
    exact issues_last trivial
  apply old.bind
  intro _
  apply lib.bind
  intro _
  exact issues_onlyIf (issues_last trivial)

theorem openOutput_issues : openOutput.Issues Working := by
  apply issues_after trivial
  apply issues_after trivial
  apply (issues_call trivial).bind
  intro cfd
  trivial

theorem waitForDisk_issues (out : Int) (k : Nat) (ret : Int) :
    (waitForDisk out k ret).Issues Working := by
  induction k generalizing ret with
  | zero => trivial
  | succ k ih =>
      apply (issues_call trivial).bind
      intro ret'
      apply issues_ite
      · trivial
      · apply (issues_last (by simp [Working, bannerLine])).bind
        intro _
        apply (issues_last trivial).bind
        intro _
        exact ih ret'

theorem mountRootfs_issues (out : Int) : (mountRootfs out).Issues Working := by
  apply (issues_printAll (by simp [Working, bannerLine])).bind
  intro _
  apply issues_after trivial
  apply (issues_last (by simp [Working, bannerLine])).bind
  intro _
  exact waitForDisk_issues out 15 (-1)

theorem restoreLink_issues (n : Name) (target : Path) : (restoreLink n target).Issues Working :=
  issues_after trivial <| issues_after trivial <| issues_last trivial

/-! ### The links of step 6 -/

/-- An entry of the root directory is a link to `target`. This is said of the table and not of the
tree, as the directory may be no tree. -/
def LinkAt (env : Env) (fs : FS) (n : Name) (target : Path) : Prop :=
  ∃ i, fs.child env.diskRoot n = some i ∧ fs.node i = some (.symlink target)

/-- Only the entry `n` of the root has changed, as far as links and directories that are not
empty go. -/
structure Spares (env : Env) (n : Name) (fs fs' : FS) : Prop where
  child : ∀ m, m ≠ n → fs'.child env.diskRoot m = fs.child env.diskRoot m
  link : ∀ j t, j ≠ env.diskRoot → fs.node j = some (.symlink t) → fs'.node j = some (.symlink t)
  full : ∀ j es, j ≠ env.diskRoot → es ≠ [] → (fs'.entries j = some es ↔ fs.entries j = some es)

namespace Spares

variable {env : Env} {n m : Name} {fs fs' fs'' : FS}

theorem refl (env : Env) (n : Name) (fs : FS) : Spares env n fs fs :=
  ⟨fun _ _ => rfl, fun _ _ _ h => h, fun _ _ _ _ => Iff.rfl⟩

theorem trans (h : Spares env n fs fs') (h' : Spares env n fs' fs'') : Spares env n fs fs'' where
  child m hm := (h'.child m hm).trans (h.child m hm)
  link j t hj hlink := h'.link j t hj (h.link j t hj hlink)
  full j es hj hes := (h'.full j es hj hes).trans (h.full j es hj hes)

theorem linkAt (h : Spares env n fs fs') (F : Filed env fs) (hm : m ≠ n) {target : Path}
    (hlink : LinkAt env fs m target) : LinkAt env fs' m target := by
  obtain ⟨i, hi, hnode⟩ := hlink
  exact ⟨i, (h.child m hm).trans hi, h.link i target (F.entries _ _ i hi).2 hnode⟩

/-- Whether another name is taken by a directory with something in it stays as it is. -/
theorem fullAt_iff (h : Spares env n fs fs') (F : Filed env fs) (hm : m ≠ n) :
    FullAt env fs' m ↔ FullAt env fs m := by
  unfold FullAt
  rw [h.child m hm]
  constructor
  · rintro ⟨i, es, hi, hentries, hne⟩
    exact ⟨i, es, hi, (h.full i es (F.entries _ _ i hi).2 hne).mp hentries, hne⟩
  · rintro ⟨i, es, hi, hentries, hne⟩
    exact ⟨i, es, hi, (h.full i es (F.entries _ _ i hi).2 hne).mpr hentries, hne⟩

theorem delEntry (env : Env) (n : Name) (fs : FS) : Spares env n fs (fs.delEntry env.diskRoot n) where
  child m hm := by rw [FS.child_delEntry, if_neg fun h => hm h.2]
  link j t hj h := by rwa [FS.node_delEntry_of_ne _ _ _ _ hj]
  full j es hj _ := by rw [FS.entries_delEntry, if_neg hj]

theorem remove (env : Env) (n : Name) {fs : FS} {i : Ino} (hempty : fs.isEmptyDir i = true)
    (hroot : i ≠ env.diskRoot) : Spares env n fs (fs.remove env.diskRoot n i true) where
  child m hm := by
    rw [FS.child_remove, if_neg (Ne.symm hroot), FS.child_delEntry, if_neg fun h => hm h.2]
  link j t hj h := by
    rw [FS.node_remove hj, h]
    rintro - rfl
    simp [FS.isEmptyDir_iff, FS.entries, h] at hempty
  full j es hj hne := by
    rw [FS.entries_remove, if_neg hj]
    by_cases hji : j = i
    · subst hji
      rw [fs.isEmptyDir_iff.mp hempty]
      simp [Ne.symm hne]
    · rw [if_neg fun h => hji h.2]

theorem link_symlink (n : Name) (target : Path) (F : Filed env fs) :
    Spares env n fs (fs.link env.diskRoot n (.symlink target)) where
  child m hm := by
    rw [FS.child_link F.root (show (Node.symlink target).Bare from trivial), if_neg fun h => hm h.2]
  link j t hj h := by rw [FS.node_link hj (by simp [h]), h]
  full j es hj hne := by
    have hsame : (fs.link env.diskRoot n (.symlink target)).entries j = fs.entries j := by
      rw [FS.link, FS.entries_setEntry, if_neg hj]
      unfold FS.entries
      rw [FS.node_alloc]
      by_cases hfresh : j = fs.fresh env.diskRoot.dev
      · rw [hfresh, fs.fresh_node, if_pos rfl]
      · rw [if_neg hfresh]
    rw [hsame]

end Spares

section Links

variable {env : Env} {w : World} {n : Name}

/-- The first call takes away anything but a directory. -/
theorem Settled.unlink_link (S : Settled env w) (hno : env.choices.NoFaults) (n : Name) :
    Spares env n w.fs (kernel env w (.unlinkat AT_FDCWD (mntPath [n]) false)).1.fs ∧
      (FullAt env (kernel env w (.unlinkat AT_FDCWD (mntPath [n]) false)).1.fs n ↔
        FullAt env w.fs n) ∧
      ∀ i, (kernel env w (.unlinkat AT_FDCWD (mntPath [n]) false)).1.fs.child env.diskRoot n = some i →
        (kernel env w (.unlinkat AT_FDCWD (mntPath [n]) false)).1.fs.isDir i = true := by
  have tried := kernel_unlinkat_of env (S.mounted.resolveParent n) false
  generalize (kernel env w (.unlinkat AT_FDCWD (mntPath [n]) false)).1 = w₁ at tried ⊢
  rcases tried with ⟨_, fs, hok, changed⟩ | ⟨_, quiet, herr⟩
  · obtain ⟨i, hi, hleaf, rfl⟩ := FS.unlink_ok hok
    have hgone : w₁.fs.child env.diskRoot n = none := by
      rw [changed.fs, FS.child_delEntry, if_pos ⟨rfl, rfl⟩]
    refine ⟨changed.fs ▸ Spares.delEntry env n w.fs, ⟨?_, ?_⟩, ?_⟩
    · rintro ⟨j, es, hj, _⟩
      rw [hgone] at hj
      cases hj
    · rintro ⟨j, es, hj, hentries, _⟩
      cases hi.symm.trans hj
      simp [FS.isDir, hentries] at hleaf
    · intro j hj
      rw [hgone] at hj
      cases hj
  · rw [quiet.fs]
    refine ⟨Spares.refl env n w.fs, Iff.rfl, fun i hi => ?_⟩
    obtain ⟨e, he⟩ := herr hno
    by_contra hleaf
    simp [FS.unlink, hi, hleaf] at he

/-- The second call takes away an empty directory. -/
theorem Settled.rmdir_link (S : Settled env w) (hno : env.choices.NoFaults)
    (hdir : ∀ i, w.fs.child env.diskRoot n = some i → w.fs.isDir i = true) :
    Spares env n w.fs (kernel env w (.unlinkat AT_FDCWD (mntPath [n]) true)).1.fs ∧
      (FullAt env w.fs n → FullAt env (kernel env w (.unlinkat AT_FDCWD (mntPath [n]) true)).1.fs n) ∧
      (¬ FullAt env w.fs n →
        (kernel env w (.unlinkat AT_FDCWD (mntPath [n]) true)).1.fs.child env.diskRoot n = none) := by
  have tried := kernel_unlinkat_of env (S.mounted.resolveParent n) true
  generalize (kernel env w (.unlinkat AT_FDCWD (mntPath [n]) true)).1 = w₁ at tried ⊢
  rcases tried with ⟨_, fs, hok, changed⟩ | ⟨_, quiet, herr⟩
  · obtain ⟨i, hi, hempty, _, rfl⟩ := FS.rmdir_ok hok
    have hroot := (S.filed.entries _ _ i hi).2
    refine ⟨changed.fs ▸ Spares.remove env n hempty hroot, ?_, fun _ => ?_⟩
    · rintro ⟨j, es, hj, hentries, hne⟩
      cases hi.symm.trans hj
      rw [w.fs.isEmptyDir_iff.mp hempty] at hentries
      exact absurd (Option.some.inj hentries).symm hne
    · rw [changed.fs, FS.child_remove, if_neg (Ne.symm hroot), FS.child_delEntry, if_pos ⟨rfl, rfl⟩]
  · rw [quiet.fs]
    refine ⟨Spares.refl env n w.fs, id, fun hfull => ?_⟩
    obtain ⟨e, he⟩ := herr hno
    cases hi : w.fs.child env.diskRoot n with
    | none => rfl
    | some i =>
        -- the directory is empty and is not `/mnt`, so it can be removed
        have hbusy : (w.space env).busy ≠ some i := by
          intro hbusy
          exact S.mounted.not_busy hbusy (S.filed.entries _ _ i hi).1
        have hempty : w.fs.isEmptyDir i = true := by
          obtain ⟨es, hentries⟩ := w.fs.isDir_iff.mp (hdir i hi)
          rw [w.fs.isEmptyDir_iff, hentries]
          by_contra hne
          exact hfull ⟨i, es, hi, hentries, fun hnil => hne (by rw [hnil])⟩
        simp [FS.rmdir, hi, hdir i hi, hbusy, hempty] at he

/-- The third call puts the link where nothing is left. -/
theorem Settled.symlink_link (S : Settled env w) (hno : env.choices.NoFaults) (n : Name)
    (target : Path) :
    Spares env n w.fs (kernel env w (.symlinkat target AT_FDCWD (mntPath [n]))).1.fs ∧
      (FullAt env w.fs n →
        FullAt env (kernel env w (.symlinkat target AT_FDCWD (mntPath [n]))).1.fs n) ∧
      (w.fs.child env.diskRoot n = none →
        LinkAt env (kernel env w (.symlinkat target AT_FDCWD (mntPath [n]))).1.fs n target) := by
  have tried := kernel_symlinkat_of env (S.mounted.resolveParent n) target
  generalize (kernel env w (.symlinkat target AT_FDCWD (mntPath [n]))).1 = w₁ at tried ⊢
  rcases tried with ⟨_, fs, hok, changed⟩ | ⟨_, quiet, herr⟩
  · obtain ⟨hdir, hfree, rfl⟩ := FS.create_ok hok
    refine ⟨changed.fs ▸ Spares.link_symlink n target S.filed, ?_, fun _ => ?_⟩
    · rintro ⟨j, es, hj, _⟩
      rw [hfree] at hj
      cases hj
    · refine ⟨w.fs.fresh env.diskRoot.dev, ?_, ?_⟩
      · rw [changed.fs, FS.child_link S.filed.root (show (Node.symlink target).Bare from trivial),
          if_pos ⟨rfl, rfl⟩]
      · rw [changed.fs, FS.node_link_fresh]
        intro hnone
        simpa [FS.isDir, FS.entries, hnone] using S.filed.root
  · rw [quiet.fs]
    refine ⟨Spares.refl env n w.fs, id, fun hfree => ?_⟩
    obtain ⟨e, he⟩ := herr hno
    simp [FS.symlink, FS.create, S.filed.root, hfree] at he

/-- One link of step 6: it is there afterwards, unless there is a directory in its place
that is not empty. -/
theorem Settled.relinked (S : Settled env w) (hno : env.choices.NoFaults) (n : Name)
    (target : Path) :
    ∃ w', (restoreLink n target).run (kernel env) w = (some (), w') ∧ Settled env w' ∧
      Spares env n w.fs w'.fs ∧ (FullAt env w.fs n → FullAt env w'.fs n) ∧
      (¬ FullAt env w.fs n → LinkAt env w'.fs n target) := by
  refine ⟨_, rfl, S.run (restoreLink_issues n target), ?_⟩
  obtain ⟨spares₁, hfull₁, hdir₁⟩ := S.unlink_link hno n
  have S₁ : Settled env (kernel env w (.unlinkat AT_FDCWD (mntPath [n]) false)).1 := S.step trivial
  obtain ⟨spares₂, hfull₂, hfree₂⟩ := S₁.rmdir_link hno hdir₁
  have S₂ : Settled env (kernel env (kernel env w (.unlinkat AT_FDCWD (mntPath [n]) false)).1
      (.unlinkat AT_FDCWD (mntPath [n]) true)).1 := S₁.step trivial
  obtain ⟨spares₃, hfull₃, hlink₃⟩ := S₂.symlink_link hno n target
  refine ⟨(spares₁.trans spares₂).trans spares₃, ?_, ?_⟩
  · intro hfull
    exact hfull₃ (hfull₂ (hfull₁.mpr hfull))
  · intro hfull
    exact hlink₃ (hfree₂ fun h => hfull (hfull₁.mp h))

end Links

/-! ### After step 6 -/

/-- The calls from step 7 on: they remove nothing but a file with the name of a linker, and move
nothing. -/
def Late : Syscall → Prop
  | .mkdirat _ _ | .mountDevtmpfs | .openConsole | .mountDisk _ | .nanosleep _
  | .getdents64 _ _ | .renameat _ _ _ _ | .newfstatat _ _ => False
  | .unlinkat _ path removeDir => removeDir = false ∧
      (path.comps.getLast? = some (.name nLdLinux) ∨ path.comps.getLast? = some (.name nLd231))
  | _ => True

section Late

variable {env : Env} {w w' : World} {op : Syscall} {n : Name}

/-- The name a path ends with. -/
theorem resolveParent_getLast {fd : Int} {path : Path} {d : Ino} {m : Name}
    (h : w.resolveParent env fd path = .ok (d, m)) : path.comps.getLast? = some (.name m) := by
  obtain ⟨absolute, comps⟩ := path
  unfold World.resolveParent at h
  cases hbase : w.base env fd ⟨absolute, comps⟩ with
  | error e =>
      rw [hbase] at h
      cases h
  | ok start =>
      rw [hbase] at h
      change w.fs.lookupParent (w.space env) start comps = _ at h
      unfold FS.lookupParent at h
      split at h
      · rename_i m' rest hrev
        rw [← List.head?_reverse, hrev]
        split at h <;> cases h
        rfl
      · cases h

/-- The entries of the root directory other than the linkers stay, as links and as
directories. -/
structure Keeps (env : Env) (fs fs' : FS) : Prop where
  child : ∀ n i, n ≠ nLdLinux → n ≠ nLd231 → fs.child env.diskRoot n = some i →
    fs'.child env.diskRoot n = some i
  link : ∀ i t, fs.node i = some (.symlink t) → fs'.node i = some (.symlink t)
  dir : ∀ i, fs.isDir i = true → fs'.isDir i = true

theorem Keeps.refl (env : Env) (fs : FS) : Keeps env fs fs :=
  ⟨fun _ _ _ _ h => h, fun _ _ h => h, fun _ h => h⟩

theorem Keeps.trans {fs fs' fs'' : FS} (h : Keeps env fs fs') (h' : Keeps env fs' fs'') :
    Keeps env fs fs'' where
  child n i hld hld231 hi := h'.child n i hld hld231 (h.child n i hld hld231 hi)
  link i t hi := h'.link i t (h.link i t hi)
  dir i hi := h'.dir i (h.dir i hi)

theorem Keeps.create {fs fs' : FS} {d : Ino} {m : Name} {node : Node}
    (hfs : fs.create d m node = .ok fs') (hbare : node.Bare) : Keeps env fs fs' := by
  obtain ⟨hdir, hfree, rfl⟩ := FS.create_ok hfs
  refine ⟨fun n i _ _ hi => ?_, fun i t ht => ?_, fun i hi => ?_⟩
  · rw [FS.child_link hdir hbare, if_neg]
    · exact hi
    · rintro ⟨rfl, rfl⟩
      rw [hfree] at hi
      cases hi
  · rw [FS.node_link _ (by simp [ht]), ht]
    rintro rfl
    exact FS.not_symlink_of_isDir hdir t ht
  · rw [← FS.obj_eq_dir_iff] at hi ⊢
    rw [FS.obj_link, if_neg, hi]
    apply fs.ne_fresh_of_node
    rw [ne_eq, ← FS.obj_eq_none_iff, hi]
    simp

theorem Keeps.setData {fs : FS} {j : Ino} {data : Bytes} (hj : fs.node j = some (.file data))
    (data' : Bytes) : Keeps env fs (fs.setData j data') where
  child n i _ _ hi := by rwa [FS.child_setData]
  link i t ht := by
    rw [FS.node_setData_of_ne, ht]
    rintro rfl
    rw [hj] at ht
    cases ht
  dir i hi := by
    rw [← FS.obj_eq_dir_iff] at hi ⊢
    rwa [FS.obj_setData]

theorem Keeps.unlink {fs fs' : FS} {d : Ino} {m : Name} (hm : m = nLdLinux ∨ m = nLd231)
    (hfs : fs.unlink d m = .ok fs') : Keeps env fs fs' := by
  obtain ⟨j, hj, hleaf, rfl⟩ := FS.unlink_ok hfs
  refine ⟨fun n i hld hld231 hi => ?_, fun i t ht => ?_, fun i hi => ?_⟩
  · rw [FS.child_delEntry, if_neg]
    · exact hi
    · rintro ⟨_, rfl⟩
      rcases hm with rfl | rfl
      · exact hld rfl
      · exact hld231 rfl
  · rw [FS.node_delEntry_of_ne, ht]
    rintro rfl
    exact FS.not_symlink_of_isDir (fs.isDir_of_child hj) t ht
  · rw [← FS.obj_eq_dir_iff] at hi ⊢
    rwa [FS.obj_delEntry]

/-- The calls from step 7 on leave the two links in place: none of them removes or moves one. -/
theorem late_keeps (hop : Late op) : Keeps env w.fs (kernel env w op).1.fs := by
  obtain ⟨w', houtcome, heq⟩ := kernel_outcome env w op
  rw [heq]
  cases houtcome with
  | mkdir hres hfs => exact absurd hop id
  | symlink hres hfs => exact Keeps.create hfs trivial
  | @unlink fd path d m fs hres hfs =>
      obtain ⟨_, hlast⟩ := hop
      rw [resolveParent_getLast hres] at hlast
      refine Keeps.unlink ?_ hfs
      simpa using hlast
  | rmdir hres hfs => cases hop.1
  | rename hres hres' hfs => exact absurd hop id
  | openNew _ _ hfs => exact Keeps.create hfs trivial
  | openTrunc _ _ hdata => exact Keeps.setData hdata []
  | write hfd hdata => exact Keeps.setData hdata _
  | _ => exact Keeps.refl env w.fs

theorem late_run {α : Type} {p : Sys α} (hp : p.Issues Late) (w : World) :
    Keeps env w.fs (p.run (kernel env) w).2.fs :=
  hp.invariant (M := kernel env) (I := fun w' : World => Keeps env w.fs w'.fs)
    (fun _ _ hop h => h.trans (late_keeps hop)) (Keeps.refl env w.fs)

/-- The calls of `copy_file` to a path that ends with the name of a linker. -/
theorem copyFile_issues (out : Int) (fuel : Nat) (src : Path) {dst : Path} {srcText dstText : String}
    (hsrc : srcText ≠ bannerLine) (hdst : dstText ≠ bannerLine)
    (hlast : dst.comps.getLast? = some (.name nLdLinux) ∨ dst.comps.getLast? = some (.name nLd231)) :
    (copyFile out fuel src dst srcText dstText).Issues fun op => Working op ∧ Late op := by
  have texts : ∀ {s t : String}, s ≠ bannerLine → t ≠ bannerLine →
      (printAll out [s, t, "\n"]).Issues fun op => Working op ∧ Late op := by
    intro s t hs ht
    have hnewline : "\n" ≠ bannerLine := by simp [bannerLine]
    apply issues_printAll
    simp [Working, Late, hs, ht, hnewline]
  apply (issues_call ⟨trivial, trivial⟩).bind
  intro inFd
  apply issues_ite (texts (by simp [bannerLine]) hsrc)
  apply issues_after ⟨trivial, rfl, hlast⟩
  apply (issues_call ⟨trivial, trivial⟩).bind
  intro outFd
  apply issues_ite
  · apply (texts (by simp [bannerLine]) hdst).bind
    intro _
    exact issues_last ⟨trivial, trivial⟩
  · apply (copyLoop_issues (fun _ _ => ⟨trivial, trivial⟩) (fun _ _ => ⟨trivial, trivial⟩) _ _ _).bind
    intro _
    apply issues_after ⟨trivial, trivial⟩
    apply issues_after ⟨trivial, trivial⟩
    exact texts (by simp [bannerLine]) hdst

theorem installLinkers_issues (out : Int) (fuel : Nat) :
    (installLinkers out fuel).Issues fun op => Working op ∧ Late op := by
  apply (issues_last ⟨by simp [Working, bannerLine], trivial⟩).bind
  intro _
  apply (copyFile_issues out fuel _ (by simp [bannerLine]) (by simp [bannerLine]) (.inl rfl)).bind
  intro _
  apply (copyFile_issues out fuel _ (by simp [bannerLine]) (by simp [bannerLine]) (.inr rfl)).bind
  intro _
  apply (copyFile_issues out fuel _ (by simp [bannerLine]) (by simp [bannerLine]) (.inl rfl)).bind
  intro _
  exact issues_after ⟨trivial, trivial⟩ (issues_last ⟨trivial, trivial⟩)

theorem verifyLinker_issues (out : Int) :
    (verifyLinker out).Issues fun op => Working op ∧ Late op := by
  apply (issues_last ⟨by simp [Working, bannerLine], trivial⟩).bind
  intro _
  apply (issues_call ⟨trivial, trivial⟩).bind
  intro tfd
  apply issues_ite
  · apply (issues_last ⟨by simp [Working, bannerLine, successLine], trivial⟩).bind
    intro _
    exact issues_last ⟨trivial, trivial⟩
  · exact issues_last ⟨by simp [Working, bannerLine], trivial⟩

theorem finish_issues (out : Int) : (finish out).Issues Late := by
  apply (issues_last trivial).bind
  intro _
  apply issues_after trivial
  apply (issues_last trivial).bind
  intro _
  apply issues_after trivial
  apply issues_after trivial
  exact issues_printAll fun _ _ => trivial

end Late

/-! ### The tree before step 6 -/

section Prepare

variable {env : Env} {w w' : World}

theorem Tried.ensure (hno : env.choices.NoFaults) {ret : Int} {d : Ino} {n : Name}
    (h : Tried env w w' ret (w.fs.mkdir d n)) : w'.fs = w.fs.ensure d n := by
  unfold FS.ensure
  rcases h with ⟨_, fs, hok, changed⟩ | ⟨_, quiet, herr⟩
  · rw [hok]
    exact changed.fs
  · obtain ⟨e, he⟩ := herr hno
    rw [he]
    exact quiet.fs

theorem ramMkdir_fs (hno : env.choices.NoFaults) (w : World) (n : Name) :
    (kernel env w (.mkdirat AT_FDCWD (absPath [n]))).1.fs = w.fs.ensure env.ramRoot n :=
  Tried.ensure hno (kernel_mkdirat_of env (n := n) rfl)

/-- Calls that change no table. -/
def Still : Syscall → Prop
  | .mountDevtmpfs | .openConsole | .mountDisk _ | .nanosleep _ | .puts _ _ => True
  | _ => False

theorem still_fs {op : Syscall} (hop : Still op) (w : World) : (kernel env w op).1.fs = w.fs := by
  obtain ⟨w', houtcome, heq⟩ := kernel_outcome env w op
  rw [heq]
  cases houtcome with
  | same => rfl
  | console => rfl
  | mount => rfl
  | puts => rfl
  | _ => exact absurd hop id

variable (env) in
theorem still_run {α : Type} {p : Sys α} (hp : p.Issues Still) (w : World) :
    (p.run (kernel env) w).2.fs = w.fs :=
  hp.invariant (M := kernel env) (I := fun w' : World => w'.fs = w.fs)
    (fun _ _ hop h => (still_fs hop _).trans h) rfl

theorem waitForDisk_still (out : Int) (k : Nat) (ret : Int) : (waitForDisk out k ret).Issues Still := by
  induction k generalizing ret with
  | zero => trivial
  | succ k ih =>
      apply (issues_call trivial).bind
      intro ret'
      apply issues_ite
      · trivial
      · apply (issues_last trivial).bind
        intro _
        apply (issues_last trivial).bind
        intro _
        exact ih ret'

theorem openOutput_fs (hno : env.choices.NoFaults) (w : World) :
    (openOutput.run (kernel env) w).2.fs = w.fs.ensure env.ramRoot nDev := by
  have rest : (do
      let _ ← call .mountDevtmpfs
      let cfd ← call .openConsole
      return if cfd ≥ 0 then cfd else 1 : Sys Int).Issues Still := by
    apply issues_after trivial
    apply (issues_call trivial).bind
    intro cfd
    trivial
  exact (still_run env rest _).trans (ramMkdir_fs hno w nDev)

theorem mountRootfs_fs (hno : env.choices.NoFaults) (w : World) (out : Int) :
    ((mountRootfs out).run (kernel env) w).2.fs = w.fs.ensure env.ramRoot nMnt := by
  obtain ⟨_, w₁, hrun, quiet, _⟩ : ∃ a w₁, (printAll out ["\n\n",
      "========================================================\n",
      "===   HUB-11 ULTIMATE RESCUE & RESTORATION v3.0      ===\n",
      "========================================================\n\n"]).run (kernel env) w = (some a, w₁) ∧
      Quiet w w₁ ∧ _ :=
    printAll_ensures (I := fun _ _ => True) out _ fun _ _ => trivial
  have rest : (do
      print out (.lit ">>> Waiting for eMMC and mounting /dev/mmcblk0p6 on /mnt...\n")
      waitForDisk out 15 (-1) : Sys Int).Issues Still := by
    apply (issues_last trivial).bind
    intro _
    exact waitForDisk_still out 15 (-1)
  unfold mountRootfs
  rw [Prog.run_bind, hrun]
  rw [← quiet.fs]
  exact (still_run env rest _).trans (ramMkdir_fs hno w₁ nMnt)

/-- The path up to the last name is looked up on the disk. -/
theorem Settled.resolveParent (S : Settled env w) (p : List Name) (n : Name) :
    w.resolveParent env AT_FDCWD (mntPath (p ++ [n])) =
      match w.fs.lookup (w.space env) env.diskRoot (p.map .name) with
      | .found d => .ok (d, n)
      | .missing _ _ => .error .ENOENT
      | .fail e => .error e := by
  have hcomps : (mntPath (p ++ [n])).comps = (.name nMnt :: p.map .name) ++ [.name n] := by
    simp [mntPath, absPath]
  have happend : w.fs.lookupParent (w.space env) env.ramRoot (mntPath (p ++ [n])).comps = _ :=
    hcomps ▸ FS.lookupParent_append env.ramRoot (.name nMnt :: p.map .name) n
  rw [S.mounted.lookup] at happend
  exact happend

/-- One `mkdirat` below `/mnt`, wherever the path leads. -/
theorem Settled.mkdirat (S : Settled env w) (hno : env.choices.NoFaults) (p : List Name) (n : Name) :
    Settled env (kernel env w (.mkdirat AT_FDCWD (mntPath (p ++ [n])))).1 ∧
      (kernel env w (.mkdirat AT_FDCWD (mntPath (p ++ [n])))).1.space env = w.space env ∧
      (kernel env w (.mkdirat AT_FDCWD (mntPath (p ++ [n])))).1.fs =
        w.fs.ensureAt (w.space env) env.diskRoot p n := by
  have hmount : (kernel env w (.mkdirat AT_FDCWD (mntPath (p ++ [n])))).1.mount = w.mount := by
    obtain ⟨w', houtcome, heq⟩ := kernel_outcome env w (.mkdirat AT_FDCWD (mntPath (p ++ [n])))
    rw [heq]
    cases houtcome <;> rfl
  refine ⟨S.step trivial, by rw [World.space, hmount, World.space], ?_⟩
  have hparent := S.resolveParent p n
  have failed : ∀ {e : Errno}, w.resolveParent env AT_FDCWD (mntPath (p ++ [n])) = .error e →
      (kernel env w (.mkdirat AT_FDCWD (mntPath (p ++ [n])))).1.fs = w.fs := by
    intro e he
    exact (kernel_error env e rfl (by simp only [World.exec, he]; rfl)).2.fs
  unfold FS.ensureAt FS.reached
  cases hl : w.fs.lookup (w.space env) env.diskRoot (p.map .name) with
  | found d =>
      rw [hl] at hparent
      rw [Tried.ensure hno (kernel_mkdirat_of env hparent)]
      by_cases hdir : w.fs.isDir d = true
      · simp only [if_pos hdir]
      · simp only [if_neg hdir]
        rcases w.fs.ensure_cases d n with ⟨heq, _⟩ | ⟨hd, _⟩
        · exact heq
        · exact absurd hd hdir
  | missing d m =>
      rw [hl] at hparent
      exact failed hparent
  | fail e =>
      rw [hl] at hparent
      exact failed hparent

/-- A `print` is one call, and it returns. -/
theorem run_print (out : Int) (t : Text) :
    (print out t).run (kernel env) w = (some (), (kernel env w (.puts out t)).1) := rfl

/-- The directories of step 3 are made. -/
theorem Settled.ensureDirs (S : Settled env w) (hno : env.choices.NoFaults) :
    ∃ w', ensureDirs.run (kernel env) w = (some (), w') ∧ Settled env w' ∧
      w'.fs = withDirs env (w.space env) w.fs := by
  obtain ⟨S₁, hsp₁, hfs₁⟩ := S.mkdirat hno [] nUsr
  obtain ⟨S₂, hsp₂, hfs₂⟩ := S₁.mkdirat hno [nUsr] nLib
  obtain ⟨S₃, hsp₃, hfs₃⟩ := S₂.mkdirat hno [nUsr] nLib64
  obtain ⟨S₄, hsp₄, hfs₄⟩ := S₃.mkdirat hno [nUsr, nLib] nArch
  obtain ⟨S₅, _, hfs₅⟩ := S₄.mkdirat hno [nUsr, nLib] nModules
  refine ⟨_, rfl, S₅, ?_⟩
  refine hfs₅.trans ?_
  rw [hsp₄, hfs₄, hsp₃, hfs₃, hsp₂, hfs₂, hsp₁, hfs₁]
  rfl

theorem Settled.quiet (S : Settled env w) (quiet : Quiet w w') : Settled env w' where
  mounted := by
    obtain ⟨⟨mnt, hc, hdir, hm, hdev⟩, ram⟩ := S.mounted
    exact ⟨⟨mnt, by rw [quiet.fs]; exact hc, by rw [quiet.fs]; exact hdir, quiet.mount.trans hm,
      hdev⟩, ram⟩
  filed := quiet.fs ▸ S.filed

/-- No call of the two merge phases changes which directories are full. -/
theorem Settled.fullAt_direct (harm : env.abi = .arm64) (S : Settled env w) {op : Syscall}
    (hop : DirectCall op) (n : Name) :
    Settled env (kernel env w op).1 ∧ (FullAt env (kernel env w op).1.fs n ↔ FullAt env w.fs n) := by
  have settled : Settled env (kernel env w op).1 := by
    cases hop with
    | puts fd t => exact S.quiet (kernel_puts env w fd t)
    | _ => exact S.step trivial
  refine ⟨settled, ?_⟩
  obtain ⟨w', houtcome, heq⟩ := kernel_outcome env w op
  rw [heq]
  cases hop with
  | openat path =>
      have hmode : env.abi.mode dirFlags = .direct := by rw [harm, mode_dirFlags_arm64]
      cases houtcome with
      | openTrunc hcreat => rw [hmode] at hcreat; cases hcreat
      | openNew hcreat => rw [hmode] at hcreat; cases hcreat
      | _ => exact Iff.rfl
  | puts fd t => cases houtcome <;> exact Iff.rfl
  | getdents fd size => cases houtcome <;> exact Iff.rfl
  | close fd => cases houtcome <;> exact Iff.rfl
  | stat fd path => cases houtcome; exact Iff.rfl
  | @rmdir m hm =>
      cases houtcome with
      | same => exact Iff.rfl
      | rmdir hres hfs =>
          cases hres.symm.trans (S.mounted.resolveParent m)
          obtain ⟨i, hi, hempty, _, rfl⟩ := FS.rmdir_ok hfs
          have hroot := (S.filed.entries _ _ i hi).2
          by_cases hn : n = m
          · -- it was empty, and now it is not there
            subst hn
            constructor
            · rintro ⟨j, es, hj, _⟩
              rw [FS.child_remove, if_neg (Ne.symm hroot), FS.child_delEntry, if_pos ⟨rfl, rfl⟩] at hj
              cases hj
            · rintro ⟨j, es, hj, hes, hne⟩
              cases hi.symm.trans hj
              rw [w.fs.isEmptyDir_iff.mp hempty] at hes
              exact absurd (Option.some.inj hes).symm hne
          · exact (Spares.remove env m hempty hroot).fullAt_iff S.filed hn

/-- On arm64 the merges return, and fill or empty nothing but by the `mkdirat` calls. -/
theorem Settled.mergeAll (harm : env.abi = .arm64) (hno : env.choices.NoFaults) (S : Settled env w)
    (out : Int) (fuel : Nat) :
    ∃ w', (mergeAll out (fuel + 1)).run (kernel env) w = (some (), w') ∧ Settled env w' ∧
      ∀ n, FullAt env w'.fs n ↔ FullAt env (withDirs env (w.space env) w.fs) n := by
  have quiet := kernel_puts env w out (.lit ">>> Rootfs mounted successfully!\n\n")
  have S₁ := S.quiet quiet
  obtain ⟨w₂, hrun₂, S₂, hfs₂⟩ := S₁.ensureDirs hno
  obtain ⟨_, w₃, hrun₃, S₃, hfull⟩ := mergePhases_keeps (I := fun _ _ => True) harm
    (J := fun w' => Settled env w' ∧ ∀ n, FullAt env w'.fs n ↔ FullAt env w₂.fs n)
    (fun w op hop h => ⟨(h.1.fullAt_direct harm hop nLib).1,
      fun n => (h.1.fullAt_direct harm hop n).2.trans (h.2 n)⟩)
    ⟨S₂, fun _ => Iff.rfl⟩ out fuel fun _ _ => trivial
  refine ⟨w₃, ?_, S₃, fun n => ?_⟩
  · unfold Recovery.mergeAll
    rw [Prog.run_bind, run_print]
    dsimp only
    rw [Prog.run_bind, hrun₂]
    exact hrun₃
  · rw [hfull n, hfs₂, World.space, quiet.mount, quiet.fs, World.space]

end Prepare

/-! ### The whole run -/

/-- Both links of the usr-merge are in place. -/
def Restored (env : Env) (fs : FS) : Prop :=
  LinkAt env fs nLib (relPath [nUsr, nLib]) ∧ LinkAt env fs nLib64 (relPath [nUsr, nLib64])

/-- Neither name is taken by a directory that is not empty. Only such a directory survives the two
removals of step 6. -/
def Cleared (env : Env) (fs : FS) : Prop := ¬ FullAt env fs nLib ∧ ¬ FullAt env fs nLib64

section Run

variable {env : Env} {w : World} {V : View}

theorem not_linkAt_of_full {fs fs' : FS} (keeps : Keeps env fs fs') {n : Name} (hld : n ≠ nLdLinux)
    (hld231 : n ≠ nLd231) (hfull : FullAt env fs n) (target : Path) : ¬ LinkAt env fs' n target := by
  obtain ⟨i, es, hi, hentries, _⟩ := hfull
  rintro ⟨j, hj, hlink⟩
  cases (keeps.child n i hld hld231 hi).symm.trans hj
  exact FS.not_symlink_of_isDir (keeps.dir i (fs.isDir_iff.mpr ⟨es, hentries⟩)) target hlink

theorem Keeps.linkAt {fs fs' : FS} (keeps : Keeps env fs fs') {n : Name} (hld : n ≠ nLdLinux)
    (hld231 : n ≠ nLd231) {target : Path} (h : LinkAt env fs n target) : LinkAt env fs' n target := by
  obtain ⟨i, hi, hlink⟩ := h
  exact ⟨i, keeps.child n i hld hld231 hi, keeps.link i target hlink⟩

/-- Step 6. -/
theorem Settled.bothRelinked (S : Settled env w) (hno : env.choices.NoFaults) (out : Int) :
    ∃ w', (restoreSymlinks out).run (kernel env) w = (some (), w') ∧
      (Cleared env w.fs → Restored env w'.fs) ∧
      (¬ Cleared env w.fs → FullAt env w'.fs nLib ∨ FullAt env w'.fs nLib64) := by
  have quiet := kernel_puts env w out
    (.lit ">>> Rebuilding UsrMerge symlinks (/lib -> usr/lib, /lib64 -> usr/lib64)...\n")
  have S₁ : Settled env (kernel env w (.puts out
      (.lit ">>> Rebuilding UsrMerge symlinks (/lib -> usr/lib, /lib64 -> usr/lib64)...\n"))).1 :=
    S.step (by simp [Working, bannerLine])
  obtain ⟨w₂, hrun₂, S₂, spares₂, hfull₂, hlink₂⟩ := S₁.relinked hno nLib (relPath [nUsr, nLib])
  obtain ⟨w₃, hrun₃, S₃, spares₃, hfull₃, hlink₃⟩ :=
    S₂.relinked hno nLib64 (relPath [nUsr, nLib64])
  have hlib := spares₃.fullAt_iff S₂.filed (show nLib ≠ nLib64 by decide)
  have hlib64 := spares₂.fullAt_iff S₁.filed (show nLib64 ≠ nLib by decide)
  rw [quiet.fs] at hfull₂ hlink₂ hlib64
  refine ⟨w₃, ?_, ?_, ?_⟩
  · unfold restoreSymlinks
    rw [Prog.run_bind, run_print]
    dsimp only
    rw [Prog.run_bind, hrun₂]
    exact hrun₃
  · rintro ⟨hlibFree, hlib64Free⟩
    refine ⟨?_, hlink₃ fun h => hlib64Free (hlib64.mp h)⟩
    exact spares₃.linkAt S₂.filed (by decide) (hlink₂ hlibFree)
  · intro hnot
    by_cases hfull : FullAt env w.fs nLib
    · exact .inl (hlib.mpr (hfull₂ hfull))
    · refine .inr (hfull₃ (hlib64.mpr ?_))
      by_contra hfree
      exact hnot ⟨hfull, hfree⟩

/-- Steps 6 to 10: the links are there at the end exactly if there was room for them. -/
theorem Settled.rebuilt (S : Settled env w) (hno : env.choices.NoFaults) (out : Int) (fuel : Nat) :
    Restored env ((rebuild out fuel).run (kernel env) w).2.fs ↔ Cleared env w.fs := by
  obtain ⟨w', hrun, hrestored, hfull⟩ := S.bothRelinked hno out
  have late : (do installLinkers out fuel; verifyLinker out; finish out : Sys Unit).Issues Late := by
    apply ((installLinkers_issues out fuel).mono fun _ h => h.2).bind
    intro _
    apply ((verifyLinker_issues out).mono fun _ h => h.2).bind
    intro _
    exact finish_issues out
  have keeps : Keeps env w'.fs ((rebuild out fuel).run (kernel env) w).2.fs := by
    unfold rebuild
    rw [Prog.run_bind, hrun]
    exact late_run late w'
  constructor
  · rintro ⟨hlib, hlib64⟩
    by_contra hnot
    rcases hfull hnot with h | h
    · exact not_linkAt_of_full keeps (by decide) (by decide) h _ hlib
    · exact not_linkAt_of_full keeps (by decide) (by decide) h _ hlib64
  · intro hcleared
    obtain ⟨hlib, hlib64⟩ := hrestored hcleared
    exact ⟨keeps.linkAt (by decide) (by decide) hlib, keeps.linkAt (by decide) (by decide) hlib64⟩

/-- Whether the names are clear when step 6 begins, told by the tree that `_start` was given. The
steps before can only remove an empty `/lib` or put directories into it through links. -/
theorem cleared_iff_unobstructed {fs fs₃ : FS} {sp : Space} (hsp : sp = mountedSpace env (readied env fs))
    (hcov : (readied env fs).Covers sp) (F : Filed env fs) (hram : env.ramRoot.dev ≠ env.diskRoot.dev)
    (hfull : ∀ n, FullAt env fs₃ n ↔ FullAt env (withDirs env sp (readied env fs)) n)
    (F₂ : Filed env (readied env fs)) :
    Cleared env fs₃ ↔ Unobstructed env fs nLib ∧ Unobstructed env fs nLib64 := by
  have one : ∀ n, ¬ FullAt env fs₃ n ↔ Unobstructed env fs n := by
    intro n
    have hroot : (readied env fs).child env.diskRoot n ≠ some env.diskRoot :=
      fun h => (F₂.entries _ _ _ h).2 rfl
    have hready : FullAt env (readied env fs) n ↔ FullAt env fs n := by
      refine fullAt_readied (fun i hi hdev => hram ?_) fun h => hram (by rw [h])
      rw [← hdev, (F.entries _ _ i hi).1]
    rw [hfull, fullAt_withDirs hcov hroot, hready, hsp]
    constructor
    · intro hnot
      exact ⟨fun h => hnot (.inl h), fun h => hnot (.inr (.inl h)), fun h => hnot (.inr (.inr h))⟩
    · rintro ⟨hempty, husr, hlib⟩ (h | h | h)
      · exact hempty h
      · exact husr h
      · exact hlib h
  exact and_congr (one nLib) (one nLib64)

/-- Steps 1 and 2: the disk is mounted, and the rest of the run starts from its tree with the mount
point made where it was missing. -/
theorem Boot.settles (hno : env.choices.NoFaults) (B : Boot env V w) (F : Filed env w.fs)
    (hready : AppearsWithin env 15 (w.tick + 9)) :
    ∃ out w₂, (∀ fuel, (start fuel).run (kernel env) w =
        (do mergeAll out fuel; rebuild out fuel; return Halt.complete : Sys Halt).run (kernel env) w₂) ∧
      w₂.fs = readied env w.fs ∧ Settled env w₂ ∧
      w₂.space env = mountedSpace env (readied env w.fs) ∧
      (readied env w.fs).Covers (w₂.space env) ∧
      (.lit bannerLine ∉ w.log → .lit bannerLine ∉ w₂.log) := by
  obtain ⟨out, w₁, hrun₁, B₁, _, htick₁, _⟩ :=
    openOutput_ensures (I := fun _ _ => True) hno B fun _ _ => trivial
  obtain ⟨ret, w₂, hrun₂, rfl, R, _⟩ := mountRootfs_ensures (I := fun _ _ => True) hno B₁
    (by rw [htick₁]; exact hready) out fun _ _ => trivial
  have hfs₂ : w₂.fs = readied env w.fs := by
    have hfs₁ := openOutput_fs hno w
    have hfs₂ := mountRootfs_fs hno w₁ out
    rw [hrun₁] at hfs₁
    rw [hrun₂] at hfs₂
    rw [readied, ← hfs₁]
    exact hfs₂
  have F₂ : Filed env w₂.fs := by
    have F₁ := F.run openOutput
    rw [hrun₁] at F₁
    have F₂ := F₁.run (mountRootfs out)
    rwa [hrun₂] at F₂
  obtain ⟨mnt, hc, hdir, hm, _⟩ := R.mounted.point
  refine ⟨out, w₂, fun fuel => ?_, hfs₂, ⟨R.mounted, F₂⟩, ?_, ?_, fun hlog => ?_⟩
  · unfold start
    rw [Prog.run_bind, hrun₁]
    dsimp only
    rw [Prog.run_bind, hrun₂]
    rfl
  · rw [World.space, mountedSpace, hm, ← hfs₂, hc]
    rfl
  · intro c top hct
    cases hm.symm.trans hct
    rw [← hfs₂]
    exact hdir
  · have hlog₁ := banner_of_run env openOutput_issues hlog
    rw [hrun₁] at hlog₁
    have hlog₂ := banner_of_run env (mountRootfs_issues out) hlog₁
    rwa [hrun₂] at hlog₂

theorem run_complete (p : Sys Unit) (w : World) :
    ((do p; return Halt.complete : Sys Halt).run (kernel env) w).2 = (p.run (kernel env) w).2 := by
  rw [Prog.run_bind]
  generalize p.run (kernel env) w = done
  obtain ⟨_ | _, _⟩ := done <;> rfl

/-- A run of `_start` on arm64 in which no call is made to fail: when it prints the banner,
both links are in place exactly if nothing was in their way, and that is a matter of the tree
on the disk at the start. The links and the bound are arbitrary, and so are the order in which
directories are listed and the number of attempts that the mount takes. -/
theorem restored_iff_unobstructed (env : Env) (V : View) (w : World) (fuel : Nat)
    (harm : env.abi = .arm64) (hno : env.choices.NoFaults) (B : Boot env V w) (F : Filed env w.fs)
    (hready : AppearsWithin env 15 (w.tick + 9)) (hlog : .lit bannerLine ∉ w.log)
    (hbanner : .lit bannerLine ∈ ((start fuel).run (kernel env) w).2.log) :
    Restored env ((start fuel).run (kernel env) w).2.fs ↔
      Unobstructed env w.fs nLib ∧ Unobstructed env w.fs nLib64 := by
  obtain ⟨out, w₂, hstart, hfs₂, S₂, hspace, hcov, hlog₂⟩ := B.settles hno F hready
  rw [hstart] at hbanner ⊢
  have hlog₃ := banner_of_run env (mergeAll_issues out fuel) (hlog₂ hlog)
  obtain ⟨w₃, hrun₃, S₃, hfull⟩ := S₂.mergeAll harm hno out fuel
  rw [hfs₂] at hfull
  rw [← cleared_iff_unobstructed hspace hcov F S₂.mounted.ram hfull (hfs₂ ▸ S₂.filed)]
  rw [Prog.run_bind] at hbanner ⊢
  -- with a bound that is used up the banner is not reached, and any other gives the same run
  generalize hrun : (mergeAll out fuel).run (kernel env) w₂ = merged at hlog₃ hbanner ⊢
  obtain ⟨res, w₃'⟩ := merged
  cases res with
  | none => exact absurd hbanner hlog₃
  | some _ =>
      cases ((mergeAll_grows out).below (Nat.le_succ fuel)).run_eq hrun |>.symm.trans hrun₃
      dsimp only
      rw [run_complete]
      exact S₃.rebuilt hno out fuel

end Run

section Sample

/-- What the banner seems to say: whenever a run prints it, it prints it over a tree with both
links. -/
def AlwaysRestored : Prop :=
  ∀ (env : Env) (V : View) (w : World) (fuel : Nat), env.abi = .arm64 → env.choices.NoFaults →
    Boot env V w → Filed env w.fs → AppearsWithin env 15 (w.tick + 9) → .lit bannerLine ∉ w.log →
    .lit bannerLine ∈ ((start fuel).run (kernel env) w).2.log →
    Restored env ((start fuel).run (kernel env) w).2.fs

/-- A disk with nothing but a directory `/lib64`. -/
def lib64Disk (es : List (Name × Ino)) : FS := .ofList
  [(⟨0, 0⟩, .dir ⟨0, 0⟩ []), (⟨1, 10⟩, .dir ⟨1, 10⟩ [(nLib64, ⟨1, 11⟩)]),
    (⟨1, 11⟩, .dir ⟨1, 10⟩ es), (⟨1, 12⟩, .file [1])]

/-- The directory entries of a finite table, checked one by one. -/
theorem filed_of_nodes {env : Env} {nodes : List (Ino × Node)}
    (hroot : (FS.ofList nodes).isDir env.diskRoot = true)
    (h : ∀ x ∈ nodes, ∀ e ∈ ((FS.ofList nodes).entries x.1).getD [],
      e.2.dev = x.1.dev ∧ e.2 ≠ env.diskRoot) :
    Filed env (.ofList nodes) where
  root := hroot
  entries := by
    intro d n i hi
    obtain ⟨es, he⟩ := (FS.ofList nodes).isDir_iff.mp ((FS.ofList nodes).isDir_of_child hi)
    rw [(FS.ofList nodes).child_of_entries he] at hi
    obtain ⟨e, hfind, rfl⟩ := Option.map_eq_some_iff.mp hi
    obtain ⟨x, hx⟩ : ∃ x, nodes.find? (fun x => x.1 = d) = some x := by
      rw [← Option.ne_none_iff_exists']
      intro hnone
      have hd : (FS.ofList nodes).node d = none := congrArg (Option.map Prod.snd) hnone
      simp [FS.entries, hd] at he
    have hxd : x.1 = d := by simpa using List.find?_some hx
    have := h x (List.mem_of_find?_eq_some hx) e (by
      rw [hxd, he]
      exact List.mem_of_find?_eq_some hfind)
    rwa [hxd] at this

/-- An empty directory and one with a file: a boot starts on both disks. -/
private theorem lib64Disk_boots {es : List (Name × Ino)}
    (h : es = [] ∨ es = [(nModules, ⟨1, 12⟩)]) :
    Boot patientEnv ((lib64Disk es).view ⟨1, 10⟩) (freshWorld (lib64Disk es)) ∧
      Filed patientEnv (lib64Disk es) := by
  rcases h with rfl | rfl <;>
    exact ⟨freshWorld_boot patientEnv rfl rfl (by decide +kernel),
      filed_of_nodes (by decide +kernel) (by decide +kernel)⟩

/-- An empty `/lib64` gives way to the link, and nothing is in the way of the other one. -/
theorem restored_iff_unobstructed_empty :
    Restored patientEnv ((start 5).run (kernel patientEnv) (freshWorld (lib64Disk []))).2.fs :=
  (restored_iff_unobstructed patientEnv _ (freshWorld (lib64Disk [])) 5 rfl (fun _ => rfl)
    (lib64Disk_boots (.inl rfl)).1 (lib64Disk_boots (.inl rfl)).2 ⟨1, by decide, by decide⟩
    (by simp [freshWorld]) (by decide +kernel)).mpr (by decide +kernel)

/-- A directory `/lib64` with one file in it is not merged and not replaced, and the banner
is printed all the same. -/
theorem not_alwaysRestored : ¬ AlwaysRestored := by
  intro h
  obtain ⟨_, i, hi, hlink⟩ := h patientEnv _ (freshWorld (lib64Disk [(nModules, ⟨1, 12⟩)])) 5 rfl
    (fun _ => rfl) (lib64Disk_boots (.inr rfl)).1 (lib64Disk_boots (.inr rfl)).2
    ⟨1, by decide, by decide⟩ (by simp [freshWorld]) (by decide +kernel)
  have hsame : ((start 5).run (kernel patientEnv)
      (freshWorld (lib64Disk [(nModules, ⟨1, 12⟩)]))).2.fs.child ⟨1, 10⟩ nLib64 = some ⟨1, 11⟩ := by
    decide +kernel
  have hdir : ((start 5).run (kernel patientEnv)
      (freshWorld (lib64Disk [(nModules, ⟨1, 12⟩)]))).2.fs.isDir ⟨1, 11⟩ = true := by
    decide +kernel
  cases hsame.symm.trans hi
  exact FS.not_symlink_of_isDir hdir _ hlink

end Sample

end Hub11.Recovery
