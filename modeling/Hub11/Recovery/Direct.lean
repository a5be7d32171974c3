import Hub11.Posix.InPlace
import Hub11.Recovery.Install

/-!
The merge phases of `_start` on arm64.

Here the flags that are to open a directory say `O_DIRECT`, with which no directory can
be opened. So `merge_dir` is called on a file at the most, which has no listing, and all
that the two phases do is to remove an empty `/lib`.
-/

namespace Hub11.Recovery

open Hub11.Effect Hub11.Posix

section Calls

variable {env : Env} (harm : env.abi = .arm64)
include harm

/-- Nothing is opened with these flags but a file. -/
theorem kernel_openat_direct (w : World) (fd : Int) (path : Path) :
    ((kernel env w (.openat fd path dirFlags)).2.ret < 0 ∧
      Quiet w (kernel env w (.openat fd path dirFlags)).1) ∨
    ∃ i, (kernel env w (.openat fd path dirFlags)).2.ret = w.nextFd ∧
      Opened w (kernel env w (.openat fd path dirFlags)).1 (.file i 0) := by
  have hdirect : env.abi.mode dirFlags = .direct := by rw [harm, mode_dirFlags_arm64]
  cases hf : env.choices.fault w.tick with
  | some e => exact .inl (kernel_refused env e rfl (by simp [World.attempt, hf]))
  | none =>
      rcases World.openPath_code env w fd path (mode_dirFlags_ne_creat env.abi)
        with ⟨e, he, _⟩ | ⟨i, _, hok⟩ | ⟨_, _, hne, _⟩
      · exact .inl (kernel_error env e rfl he)
      · exact .inr ⟨i, kernel_opened env hf hok⟩
      · exact absurd hdirect hne

end Calls

section Files

variable {env : Env} {w : World} {I : World → Syscall → Prop} {sk : Nat} {i : Ino} {off : Nat}

/-- There is nothing to list in a file. -/
theorem mergeFrom_file (h : w.fds sk = some (.file i off)) (out dst : Int) (fuel : Nat) :
    Prog.Ensures (kernel env) I (mergeFrom out (fuel + 1) sk dst) w fun _ w' =>
      ∃ w₁, Quiet w w₁ ∧ w' = (kernel env w₁ (.close sk)).1 := by
  apply Prog.Ensures.bind
  apply (mergeDir_file out h dst fuel "").mono
  intro _ w₁ quiet
  apply Prog.ensures_call
  intro _
  exact Prog.ensures_pure ⟨w₁, quiet, rfl⟩

end Files

/-! ### Whatever fails -/

/-- The calls of the two phases when no directory is opened. The only one of them that changes a
table is the `rmdir` of `/lib_old` or `/lib`. -/
inductive DirectCall : Syscall → Prop
  | openat (path : Path) : DirectCall (.openat AT_FDCWD path dirFlags)
  | puts (fd : Int) (t : Text) : DirectCall (.puts fd t)
  | getdents (fd : Int) (size : Nat) : DirectCall (.getdents64 fd size)
  | close (fd : Int) : DirectCall (.close fd)
  | stat (fd : Int) (path : Path) : DirectCall (.newfstatat fd path)
  | rmdir {n : Name} (hn : n = nLibOld ∨ n = nLib) :
      DirectCall (.unlinkat AT_FDCWD (mntPath [n]) true)

section Invariant

variable {env : Env} {I : World → Syscall → Prop} (harm : env.abi = .arm64) {J : World → Prop}
  (hkeep : ∀ w op, DirectCall op → J w → J (kernel env w op).1)
include hkeep

/-- A merge from a descriptor on a file keeps the invariant: its first listing fails, and the
descriptor is closed. -/
theorem mergeFrom_keeps {w : World} {sk : Nat} {i : Ino} (hJ : J w)
    (h : w.fds sk = some (.file i 0)) (out dst : Int) (fuel : Nat) :
    Prog.Ensures (kernel env) I (mergeFrom out (fuel + 1) sk dst) w fun _ w' => J w' := by
  unfold mergeFrom mergeDir
  have hdesc : w.desc (sk : Int) = some (.file i 0) := h
  have hfail : (kernel env w (.getdents64 sk 2048)).2.ret < 0 :=
    (kernel_error env .ENOTDIR rfl (by simp only [World.exec, World.getdents, hdesc])).1
  apply Prog.Ensures.bind
  refine Prog.ensures_call fun _ => ?_
  change Prog.Ensures (kernel env) I (if (kernel env w (.getdents64 sk 2048)).2.ret > 0 then _ else _)
    _ _
  rw [if_neg (by omega)]
  apply Prog.ensures_pure
  apply Prog.ensures_call
  intro _
  exact Prog.ensures_pure (hkeep _ _ (.close _) (hkeep _ _ (.getdents _ _) hJ))

theorem rmdir_keeps {w : World} {n : Name} (hn : n = nLibOld ∨ n = nLib) (hJ : J w) :
    Prog.Ensures (kernel env) I (do let _ ← call (.unlinkat AT_FDCWD (mntPath [n]) true)) w
      fun _ w' => J w' := by
  apply Prog.ensures_call
  intro _
  exact Prog.ensures_pure (hkeep _ _ (.rmdir hn) hJ)

include harm in
theorem mergeLibOld_keeps {w : World} (hJ : J w) (out dst : Int) (fuel : Nat) :
    Prog.Ensures (kernel env) I (mergeLibOld out (fuel + 1) dst) w fun _ w' => J w' := by
  apply ensures_do
  intro _
  have hJ₁ := hkeep _ _ (.openat (mntPath [nLibOld])) hJ
  rcases kernel_openat_direct harm w AT_FDCWD (mntPath [nLibOld]) with
    ⟨hret, _⟩ | ⟨i, hret, opened⟩
  · rw [if_neg (by omega)]
    exact Prog.ensures_pure hJ₁
  · rw [if_pos (by omega), hret]
    apply Prog.Ensures.bind
    apply Prog.ensures_call
    intro _
    apply Prog.ensures_pure
    have hfile : (kernel env (kernel env w (.openat AT_FDCWD (mntPath [nLibOld]) dirFlags)).1
        (.puts out (.lit ">>> Merging /mnt/lib_old into /mnt/usr/lib...\n"))).1.fds w.nextFd =
        some (.file i 0) := by
      rw [(kernel_puts env _ out _).fds, opened.fds]
      exact if_pos rfl
    apply Prog.Ensures.bind
    apply (mergeFrom_keeps hkeep (hkeep _ _ (.puts _ _) hJ₁) hfile out dst fuel).mono
    exact fun _ w' hJ' => rmdir_keeps hkeep (.inl rfl) hJ'

include harm in
theorem mergeLib_keeps {w : World} (hJ : J w) (out dst : Int) (fuel : Nat) :
    Prog.Ensures (kernel env) I (mergeLib out (fuel + 1) dst) w fun _ w' => J w' := by
  apply Prog.Ensures.bind
  apply Prog.ensures_perform
  intro _
  have hJ₁ := hkeep _ _ (.stat AT_FDCWD (mntPath [nLib])) hJ
  split
  · apply Prog.Ensures.bind
    apply Prog.ensures_call
    intro _
    apply Prog.ensures_pure
    have hJ₂ := hkeep _ _ (.puts out (.lit ">>> Merging /mnt/lib into /mnt/usr/lib...\n")) hJ₁
    generalize (kernel env _ (.puts out
      (.lit ">>> Merging /mnt/lib into /mnt/usr/lib...\n"))).1 = w₂ at hJ₂ ⊢
    apply ensures_do
    intro _
    have hJ₃ := hkeep _ _ (.openat (mntPath [nLib])) hJ₂
    apply Prog.Ensures.bind
    rcases kernel_openat_direct harm w₂ AT_FDCWD (mntPath [nLib]) with
      ⟨hret, _⟩ | ⟨i, hret, opened⟩
    · rw [onlyIf, if_neg (by omega)]
      apply Prog.ensures_pure
      exact rmdir_keeps hkeep (.inr rfl) hJ₃
    · rw [onlyIf, if_pos (by omega), hret]
      have hfile : (kernel env w₂ (.openat AT_FDCWD (mntPath [nLib]) dirFlags)).1.fds w₂.nextFd =
          some (.file i 0) := by
        rw [opened.fds]
        exact if_pos rfl
      apply (mergeFrom_keeps hkeep hJ₃ hfile out dst fuel).mono
      exact fun _ w' hJ' => rmdir_keeps hkeep (.inr rfl) hJ'
  · exact Prog.ensures_pure hJ₁

theorem closeOpen_keeps {w : World} (hJ : J w) (fd : Int) :
    Prog.Ensures (kernel env) I (closeOpen fd) w fun _ w' => J w' := by
  unfold closeOpen onlyIf
  split
  · apply Prog.ensures_call
    intro _
    exact Prog.ensures_pure (hkeep _ _ (.close _) hJ)
  · exact Prog.ensures_pure hJ

include harm in
/-- On arm64 both phases come to their end, also if calls fail, and what their calls keep
is kept. -/
theorem mergePhases_keeps {w : World} (hJ : J w) (out : Int) (fuel : Nat) :
    Prog.Ensures (kernel env) I (mergePhases out (fuel + 1)) w fun _ w' => J w' := by
  apply ensures_do
  intro _
  have hJ₁ := hkeep _ _ (.openat (mntPath [nUsr, nLib])) hJ
  apply Prog.Ensures.bind
  apply (mergeLibOld_keeps harm hkeep hJ₁ out _ fuel).mono
  intro _ w₂ hJ₂
  apply Prog.Ensures.bind
  apply (mergeLib_keeps harm hkeep hJ₂ out _ fuel).mono
  intro _ w₃ hJ₃
  exact closeOpen_keeps hkeep hJ₃ _

end Invariant

/-! ### Without failures -/

section Tree

variable {env : Env} {w : World} {V : View} {I : World → Syscall → Prop} (harm : env.abi = .arm64)
  (hno : env.choices.NoFaults) (R : Rootfs env V w)
include harm hno R

/-- A directory `/lib_old` cannot be opened, and anything else is not removed. -/
theorem Rootfs.mergeLibOld_direct (out dst : Int) (fuel : Nat) :
    Prog.Ensures (kernel env) I (mergeLibOld out (fuel + 1) dst) w fun _ w' => Leads env w V w' := by
  apply ensures_do
  intro _
  rcases kernel_openat_direct harm w AT_FDCWD (mntPath [nLibOld]) with
    ⟨hret, quiet⟩ | ⟨i, hret, opened⟩
  · rw [if_neg (by omega)]
    exact Prog.ensures_pure (R.quiet quiet)
  · have hkeep : V.rmdir [nLibOld] = V := by
      rw [View.rmdir, if_neg]
      intro hone
      have hdir : V [nLibOld] = some .dir := congrFun hone []
      have := (R.openat_dir_direct hdir harm).1
      omega
    rw [if_pos (by omega), hret]
    generalize (kernel env w (.openat AT_FDCWD (mntPath [nLibOld]) dirFlags)).1 = w₁ at opened ⊢
    apply ensures_print
    intro w₂ quiet₂
    have hfile : w₂.fds w.nextFd = some (.file i 0) := by
      rw [quiet₂.fds, opened.fds]
      exact if_pos rfl
    apply Prog.Ensures.bind
    apply (mergeFrom_file hfile out dst fuel).mono
    rintro _ _ ⟨w₃, quiet₃, rfl⟩
    have l := R.opened_closed opened ((R.opened opened).1.quiet (quiet₂.trans quiet₃))
    apply Prog.ensures_call
    intro _
    have l' := (l.rootfs.rmdirat hno l.rootfs.root nLibOld).1
    rw [List.nil_append, hkeep] at l'
    exact Prog.ensures_pure (l.trans l')

/-- All that is done to `/lib` is the `rmdir`. -/
theorem Rootfs.mergeLib_direct (out dst : Int) (fuel : Nat) :
    Prog.Ensures (kernel env) I (mergeLib out fuel dst) w fun _ w' =>
      Leads env w (V.rmdir [nLib]) w' := by
  have hstat : Quiet w (kernel env w (.newfstatat AT_FDCWD (mntPath [nLib]))).1 ∧
      (((kernel env w (.newfstatat AT_FDCWD (mntPath [nLib]))).2.ret = 0 ∧
        (kernel env w (.newfstatat AT_FDCWD (mntPath [nLib]))).2.type = .dir) ↔
        V [nLib] = some .dir) := R.newfstatat hno R.root nLib
  obtain ⟨quiet, htype⟩ := hstat
  have l₁ := R.quiet quiet
  apply Prog.Ensures.bind
  apply Prog.ensures_perform
  intro _
  by_cases hdir : V [nLib] = some .dir
  · rw [if_pos (htype.mpr hdir)]
    apply ensures_print
    intro w₂ quiet₂
    have l₂ := l₁.trans (l₁.rootfs.quiet quiet₂)
    obtain ⟨hret, quiet₃⟩ := l₂.rootfs.openat_dir_direct hdir harm
    apply ensures_do
    intro _
    have l₃ := l₂.trans (l₂.rootfs.quiet quiet₃)
    apply Prog.Ensures.bind
    rw [onlyIf, if_neg (by omega)]
    apply Prog.ensures_pure
    apply Prog.ensures_call
    intro _
    exact Prog.ensures_pure (l₃.trans (l₃.rootfs.rmdirat hno l₃.rootfs.root nLib).1)
  · have hkeep : V.rmdir [nLib] = V := by
      rw [View.rmdir, if_neg]
      exact fun hone => hdir (congrFun hone [])
    rw [if_neg fun h => hdir (htype.mp h), hkeep]
    exact Prog.ensures_pure l₁

/-- On arm64 nothing is merged: the two phases remove `/lib` if it is an empty directory,
and do nothing else to the tree. -/
theorem Rootfs.mergePhases_direct (out : Int) (fuel : Nat) :
    Prog.Ensures (kernel env) I (mergePhases out (fuel + 1)) w fun _ w' =>
      Leads env w (V.rmdir [nLib]) w' := by
  have phases : ∀ {w₁ : World} (dst : Int), Rootfs env V w₁ →
      Prog.Ensures (kernel env) I (do mergeLibOld out (fuel + 1) dst; mergeLib out (fuel + 1) dst) w₁
        fun _ w' => Leads env w₁ (V.rmdir [nLib]) w' := by
    intro w₁ dst R₁
    apply Prog.Ensures.bind
    apply (R₁.mergeLibOld_direct harm hno out dst fuel).mono
    intro _ w₂ l₂
    apply (l₂.rootfs.mergeLib_direct harm hno out dst (fuel + 1)).mono
    exact fun _ w₃ l₃ => l₂.trans l₃
  have hassoc : ∀ dst, (do
      mergeLibOld out (fuel + 1) dst
      mergeLib out (fuel + 1) dst
      closeOpen dst : Sys Unit) =
      (do mergeLibOld out (fuel + 1) dst; mergeLib out (fuel + 1) dst) >>= fun _ => closeOpen dst :=
    fun dst => (Prog.bind_assoc _ _ _).symm
  unfold mergePhases
  apply ensures_do
  intro _
  rw [hassoc]
  apply Prog.Ensures.bind
  rcases kernel_openat_direct harm w AT_FDCWD (mntPath [nUsr, nLib]) with
    ⟨hret, quiet⟩ | ⟨i, hret, opened⟩
  · apply (phases _ (R.quiet quiet).rootfs).mono
    intro _ w₂ l₂
    rw [closeOpen, onlyIf, if_neg (by omega)]
    exact Prog.ensures_pure ((R.quiet quiet).trans l₂)
  · apply (phases _ (R.opened opened).1).mono
    intro _ w₂ l₂
    rw [closeOpen, onlyIf, if_pos (by omega), hret]
    apply Prog.ensures_call
    intro _
    exact Prog.ensures_pure (R.opened_closed opened l₂)

end Tree

end Hub11.Recovery
