import Hub11.Recovery.Phases

/-!
Steps 7 to 10 of `_start` on a mounted root file system, without failures and without
short writes: the copies of the dynamic linkers, the links in their place when the ram
disk has none, the check through `/mnt/lib` and the `umount2`.
-/

namespace Hub11.Recovery

open Hub11.Effect Hub11.Posix

/-! ### The copy loop -/

/-- In the middle of a copy that started in `w₀` with an empty file `dst`: the first `done` bytes
are there, and both offsets say so. -/
structure Copying (w₀ w : World) (ki ko : Nat) (src dst : Ino) (data : Bytes) (done : Nat) :
    Prop where
  le : done ≤ data.length
  fs : w.fs = w₀.fs.setData dst (data.take done)
  source : w.fds ki = some (.file src done)
  target : w.fds ko = some (.file dst done)
  others : ∀ k, k ≠ ki → k ≠ ko → w.fds k = w₀.fds k
  nextFd : w.nextFd = w₀.nextFd
  mount : w.mount = w₀.mount

/-- Writing the next portion of a file behind the portions written before. -/
theorem overwrite_take {data : Bytes} {done : Nat} (hle : done ≤ data.length) (m : Nat) :
    overwrite (data.take done) done ((data.drop done).take m) =
      data.take (done + ((data.drop done).take m).length) := by
  have hlen : (data.take done).length = done := by simp [hle]
  have hrest : (data.take done).drop (done + ((data.drop done).take m).length) = [] := by
    rw [List.drop_eq_nil_iff, hlen]
    omega
  have hfirst : (data.take done).take done = data.take done := by simp
  have hgot : (data.drop done).take m =
      (data.drop done).take ((data.drop done).take m).length := by
    rw [List.length_take, ← List.take_take, List.take_length]
  rw [overwrite, hrest, hfirst, List.append_nil, List.take_add, ← hgot]

section Copy

variable {env : Env} {w₀ w : World} {ki ko : Nat} {src dst : Ino} {data : Bytes} {done : Nat}
  {I : World → Syscall → Prop} (hno : env.choices.NoFaults) (hwhole : env.choices.NoShort)
  (hsrc : w₀.fs.node src = some (.file data)) (hdst : w₀.fs.node dst = some (.file []))
  (hne : src ≠ dst) (hk : ki ≠ ko)
include hno hwhole hsrc hdst hne hk

/-- Without failures and short writes the loop copies the whole file, in whatever portions it is
read. -/
theorem copyLoop_ensures (h : Copying w₀ w ki ko src dst data done) {fuel : Nat}
    (hfuel : data.length - done < fuel) :
    Prog.Ensures (kernel env) I (copyLoop fuel ki ko) w fun _ w' =>
      Copying w₀ w' ki ko src dst data data.length := by
  induction fuel generalizing w done with
  | zero => omega
  | succ fuel ih =>
      have hsrc' : w.fs.node src = some (.file data) := by
        rw [h.fs, FS.node_setData_of_ne _ _ _ _ hne]
        exact hsrc
      obtain ⟨got, hgot, hret, hbuf, moved⟩ := kernel_read (hno w.tick) h.source hsrc' 4096
      apply Prog.ensures_call
      intro _
      generalize kernel env w (.read ki 4096) = kr at hret hbuf moved
      obtain ⟨w₁, r⟩ := kr
      dsimp only at hret hbuf moved
      change Prog.Ensures (kernel env) I (if r.ret > 0 then _ else _) w₁ _
      by_cases hempty : got = []
      · -- the end of the source: everything has been written
        have hdone : done = data.length := by
          have hlen := congrArg List.length hgot
          rw [hempty, List.length_nil, List.length_take, List.length_drop] at hlen
          have := h.le
          omega
        rw [if_neg (by rw [hret, hempty]; simp)]
        apply Prog.ensures_pure
        subst hdone
        rw [hempty] at moved
        have hfds : w₁.fds = w.fds := by
          rw [moved.fds]
          exact World.setDesc_fds_eq h.source
        exact ⟨h.le, moved.fs.trans h.fs, hfds ▸ h.source, hfds ▸ h.target, hfds ▸ h.others,
          moved.nextFd.trans h.nextFd, moved.mount.trans h.mount⟩
      · have hpos : 0 < got.length := List.length_pos_iff.mpr hempty
        have hgotle : done + got.length ≤ data.length := by
          have := h.le
          rw [hgot, List.length_take, List.length_drop]
          omega
        rw [if_pos (by rw [hret]; omega)]
        apply Prog.ensures_call
        intro _
        have htarget : w₁.fds ko = some (.file dst done) := by
          rw [moved.fds, w.setDesc_fds_of_ne hk.symm]
          exact h.target
        have hold : w₁.fs.node dst = some (.file (data.take done)) := by
          rw [moved.fs, h.fs]
          exact FS.node_setData_self _ _ _ hdst
        have moved' := kernel_write hno hwhole htarget hold r.data
        apply ih
        · have hwritten : overwrite (data.take done) done r.data =
              data.take (done + got.length) := by
            rw [hbuf, hgot]
            exact overwrite_take h.le _
          refine ⟨hgotle, ?_, ?_, ?_, ?_, moved'.nextFd.trans (moved.nextFd.trans h.nextFd),
            moved'.mount.trans (moved.mount.trans h.mount)⟩
          · rw [moved'.fs, moved.fs, h.fs, FS.setData_setData, hwritten]
          · rw [moved'.fds, World.setDesc_fds_of_ne _ hk, moved.fds, World.setDesc_fds_self]
          · rw [moved'.fds, World.setDesc_fds_self, hbuf]
          · intro k hki hko
            rw [moved'.fds, World.setDesc_fds_of_ne _ hko, moved.fds,
              World.setDesc_fds_of_ne _ hki]
            exact h.others k hki hko
        · omega

end Copy

/-! ### Copying a file of the ram disk onto the disk -/

section Calls

variable {env : Env} {w w' : World} {V : View}

theorem kernel_close_fds (h : env.choices.NoLeaks) (w : World) (k : Nat) :
    (kernel env w (.close k)).1.fds = (w.setDesc k none).fds := by
  rcases (kernel_close env w k).2.2.2 with hfds | ⟨_, hleak⟩
  · exact hfds
  · exact absurd h hleak

/-- A write to a file or link that was not there in `w₀`. -/
theorem Rootfs.setData (R : Rootfs env V w) {k : Ino} {data : Bytes}
    (hfs : w'.fs = w.fs.setData k data) (hmount : w'.mount = w.mount)
    (hbound : ∀ j, w'.nextFd ≤ j → w'.fds j = none) : Rootfs env V w' := by
  have hsame : ∀ a p i, w.fs.descend (diskTop env a) p = some i →
      w'.fs.entries i = w.fs.entries i ∧ w'.fs.obj i = w.fs.obj i := by
    intro _ _ i _
    rw [hfs, FS.entries_setData, FS.obj_setData]
    exact ⟨rfl, rfl⟩
  refine ⟨⟨?_, R.mounted.ram⟩, R.forest.congr hsame, ?_, R.root, hbound⟩
  · obtain ⟨mnt, hc, hdir, hpoint, hdev⟩ := R.mounted.point
    refine ⟨mnt, ?_, ?_, hmount.trans hpoint, hdev⟩
    · rw [hfs, FS.child, FS.entries_setData]
      exact hc
    · rw [hfs, FS.isDir, FS.entries_setData]
      exact hdir
  · rw [← R.view]
    exact FS.view_congr (hsame ())

theorem Since.setData {w₀ : World} (h : Since env w₀ w) {k : Ino} {data : Bytes}
    (hnew : w₀.fs.next ≤ k.num) (hfs : w'.fs = w.fs.setData k data)
    (hnext : w.nextFd ≤ w'.nextFd) : Since env w₀ w' where
  leaves := by
    intro i hi hleaf
    have hik : i ≠ k := by
      rintro rfl
      have := w₀.fs.bounded i hi
      omega
    rw [hfs, FS.node_setData_of_ne _ _ _ _ hik]
    exact h.leaves i hi hleaf
  ramdisk n := by
    rw [hfs, FS.child, FS.entries_setData]
    exact h.ramdisk n
  nextFd := Nat.le_trans h.nextFd hnext
  next := by
    rw [hfs]
    exact h.next

/-- `openat` with `O_CREAT | O_TRUNC`, where there is a directory or nothing. -/
theorem Rootfs.openat_creat (hno : env.choices.NoFaults) (R : Rootfs env V w) {p : List Name}
    (hp : V p = some .dir) (n : Name) :
    (V (p ++ [n]) = some .dir →
      (kernel env w (.openat AT_FDCWD (mntPath (p ++ [n])) creatFlags)).2.ret < 0 ∧
        Quiet w (kernel env w (.openat AT_FDCWD (mntPath (p ++ [n])) creatFlags)).1) ∧
    (V (p ++ [n]) = none → ∃ k w',
      kernel env w (.openat AT_FDCWD (mntPath (p ++ [n])) creatFlags) = (w', { ret := w.nextFd }) ∧
      Rootfs env (V.put (p ++ [n]) (View.one (.leaf k))) w' ∧ Since env w w' ∧
      w.fs.next ≤ k.num ∧ w'.fs.node k = some (.file []) ∧
      (w'.fds = fun j => if j = w.nextFd then some (.file k 0) else w.fds j) ∧
      w'.nextFd = w.nextFd + 1) := by
  obtain ⟨d, place⟩ := R.place hp
  have hview := R.view_child place n
  have hresolve := R.resolve place [n]
  rw [List.map_singleton] at hresolve
  constructor
  · intro hdir
    rw [hdir, eq_comm] at hview
    obtain ⟨j, hj, hobj⟩ := Option.bind_eq_some_iff.mp hview
    have hjdir := w.fs.obj_eq_dir_iff.mp hobj
    rw [FS.lookup_of_child hj (FS.not_symlink_of_isDir hjdir),
      R.mounted.cross (R.forest.onDev (a := ()) (R.below_child place hj).1)] at hresolve
    obtain ⟨es, he⟩ := w.fs.isDir_iff.mp hjdir
    apply kernel_error env .EISDIR rfl
    change w.openPath env AT_FDCWD (mntPath (p ++ [n])) creatFlags = _
    unfold World.openPath
    rw [hresolve]
    unfold FS.entries at he
    unfold World.openNode
    split at he
    · rename_i hn
      simp [hn]
    · cases he
  · intro hnone
    have hc : w.fs.child d n = none := by
      cases hc : w.fs.child d n with
      | none => rfl
      | some i =>
          rw [hnone, hc, Option.bind_some, eq_comm, FS.obj_eq_none_iff] at hview
          exact absurd hview (R.forest.live (a := ()) (R.below_child place hc).1)
    obtain ⟨es, he⟩ := w.fs.isDir_iff.mp place.isDir
    have hmissing : w.fs.lookup (w.space env) d [.name n] = .missing d n := by
      rw [w.fs.child_of_entries he] at hc
      rw [FS.lookup_name, he]
      simp only [hc]
    have hatt : w.attempt env (.openat AT_FDCWD (mntPath (p ++ [n])) creatFlags) =
        .ok ({ w with fs := w.fs.link d n (.file []) }.openDesc (.file (w.fs.fresh d.dev) 0)) := by
      simp only [World.attempt, hno w.tick, World.exec, World.openPath, hresolve, hmissing,
        FS.create, place.isDir, hc, if_true]
      rfl
    have hbare : (Node.file []).Bare := trivial
    have hlink := R.forest.link_view (n := n) place hbare
    refine ⟨w.fs.fresh d.dev, _, by unfold kernel; rw [hatt]; rfl, ?_⟩
    let w₁ : World := ⟨w.fs.link d n (.file []), w.mount,
      fun j => if j = w.nextFd then some (.file (w.fs.fresh d.dev) 0) else w.fds j,
      w.nextFd + 1, w.log, w.tick + 1⟩
    have hview : w₁.fs.view env.diskRoot =
        V.put (p ++ [n]) (View.one (.leaf (w.fs.fresh d.dev))) := by
      rw [← R.view]
      exact hlink.1
    have hbound : ∀ j, w₁.nextFd ≤ j → w₁.fds j = none := by
      intro j hj
      change w.nextFd + 1 ≤ j at hj
      exact (if_neg (by omega)).trans (R.bound j (by omega))
    have step : Rootfs env _ w₁ ∧ Since env w w₁ :=
      R.step (R.forest.link_forest place trivial) (R.forest.link_within place trivial) hview
        (by rw [View.put_nil_of_ne _ (by simp)]; exact R.root) rfl (Nat.le_succ _) hbound
    exact ⟨step.1, step.2, Nat.le_refl _, FS.node_link_fresh (R.forest.live place.at_path), rfl, rfl⟩

/-- What the ram disk holds under a name: nothing, or a regular file. -/
def RamFile (env : Env) (w : World) (n : Name) : Option Bytes → Prop
  | none => w.fs.child env.ramRoot n = none
  | some data => ∃ i, w.fs.child env.ramRoot n = some i ∧ w.fs.node i = some (.file data)

theorem RamFile.since {n : Name} {file : Option Bytes} (h : RamFile env w n file)
    (since : Since env w w') : RamFile env w' n file := by
  cases file with
  | none => exact (since.ramdisk n).trans h
  | some data =>
      obtain ⟨i, hi, hnode⟩ := h
      exact ⟨i, (since.ramdisk n).trans hi, since.node_eq hnode (by simp)⟩

theorem RamFile.openat_absent {n : Name} (h : RamFile env w n none) :
    (kernel env w (.openat AT_FDCWD (absPath [n]) O_RDONLY)).2.ret < 0 ∧
      Quiet w (kernel env w (.openat AT_FDCWD (absPath [n]) O_RDONLY)).1 := by
  have hopen : ∃ e, w.exec env (.openat AT_FDCWD (absPath [n]) O_RDONLY) = .error e := by
    change ∃ e, w.openPath env AT_FDCWD (absPath [n]) O_RDONLY = .error e
    have hresolve : w.resolve env AT_FDCWD (absPath [n]) =
        w.fs.lookup (w.space env) env.ramRoot [.name n] := rfl
    unfold World.openPath
    rw [hresolve]
    cases hl : w.fs.lookup (w.space env) env.ramRoot [.name n] with
    | found j => exact absurd hl (FS.lookup_of_no_child h j)
    | missing d m => exact ⟨_, if_neg (by simp)⟩
    | fail e => exact ⟨e, rfl⟩
  obtain ⟨e, he⟩ := hopen
  exact kernel_error env e rfl he

theorem RamFile.openat {n : Name} {data : Bytes} (hno : env.choices.NoFaults)
    (mounted : Mounted env w) (h : RamFile env w n (some data)) :
    ∃ i, w.fs.node i = some (.file data) ∧
      (kernel env w (.openat AT_FDCWD (absPath [n]) O_RDONLY)).2.ret = w.nextFd ∧
      Opened w (kernel env w (.openat AT_FDCWD (absPath [n]) O_RDONLY)).1 (.file i 0) := by
  obtain ⟨i, hi, hnode⟩ := h
  obtain ⟨mnt, _, hmnt, hmount, _⟩ := mounted.point
  have hcross : (w.space env).cross i = i := by
    have hne : i ≠ mnt := by
      rintro rfl
      simp [FS.isDir, FS.entries, hnode] at hmnt
    simp [World.space, Space.cross, hmount, hne]
  have hresolve : w.resolve env AT_FDCWD (absPath [n]) = .found i := by
    change w.fs.lookup (w.space env) env.ramRoot [.name n] = _
    rw [FS.lookup_of_child hi (by simp [hnode]), hcross]
  refine ⟨i, hnode, kernel_opened env (hno _) ?_⟩
  simp only [World.exec, World.openPath, hresolve, World.openNode, hnode, Abi.mode_rdonly]

end Calls

/-- A new file or link at a path, unless there is a directory. This is what a copy does, and what a
fallback link does where nothing is. -/
inductive Placed (V : View) (p : List Name) (w w' : World) : Option Node → View → Prop where
  | kept {x : Option Node} (h : x = none ∨ V p = some .dir) : Placed V p w w' x V
  | fresh {x : Node} {k : Ino} (h : V p ≠ some .dir) (hk : w.fs.next ≤ k.num)
      (hnode : w'.fs.node k = some x) : Placed V p w w' (some x) (V.put p (View.one (.leaf k)))

section CopyFile

variable {env : Env} {w : World} {V : View} {I : World → Syscall → Prop}

/-- Closing a descriptor that was opened before other steps. -/
theorem Rootfs.opened_closed {w₁ w₂ : World} {V' : View} {desc : Desc} (R : Rootfs env V w)
    (opened : Opened w w₁ desc) (l : Leads env w₁ V' w₂) :
    Leads env w V' (kernel env w₂ (.close w.nextFd)).1 := by
  obtain ⟨R', since⟩ := l.rootfs.closed w.nextFd
  refine ⟨R', ((R.opened opened).2.trans l.since).trans since, ?_⟩
  have hdesc : w₁.fds w.nextFd = some desc := by
    rw [opened.fds]
    exact if_pos rfl
  exact Balanced.close_opened R.bound opened
    (l.balanced.of_eq_left (World.setDesc_fds_eq hdesc).symm rfl) l.since.nextFd

/-- The end of a copy: both descriptors closed. -/
theorem Copying.close {w₃ w₄ w₇ : World} {U : View} {ki ko : Nat} {i k : Ino} {data : Bytes}
    (hno : env.choices.NoFaults) (hbound : ∀ j, w.nextFd ≤ j → w.fds j = none)
    (R₃ : Rootfs env U w₃) (since : Since env w w₃) (hnew : w.fs.next ≤ k.num)
    (hnode : w₃.fs.node k = some (.file [])) (hki : w.nextFd ≤ ki) (hko : w.nextFd ≤ ko)
    (hothers : ∀ j, j ≠ ki → j ≠ ko → w₃.fds j = w.fds j)
    (copied : Copying w₃ w₄ ki ko i k data data.length)
    (quiet : Quiet (kernel env (kernel env w₄ (.close ki)).1 (.close ko)).1 w₇) :
    Leads env w U w₇ ∧ w₇.fs.node k = some (.file data) := by
  obtain ⟨hfs₅, hnext₅, hmount₅, _⟩ := kernel_close env w₄ ki
  have hfds₅ := kernel_close_fds hno.noLeaks w₄ ki
  generalize (kernel env w₄ (.close ki)).1 = w₅ at hfs₅ hnext₅ hmount₅ hfds₅ quiet
  obtain ⟨hfs₆, hnext₆, hmount₆, _⟩ := kernel_close env w₅ ko
  have hfds₆ := kernel_close_fds hno.noLeaks w₅ ko
  have hfs : w₇.fs = w₃.fs.setData k data := by
    rw [quiet.fs, hfs₆, hfs₅, copied.fs, List.take_length]
  have hnext : w₇.nextFd = w₃.nextFd := by
    rw [quiet.nextFd, hnext₆, hnext₅, copied.nextFd]
  have hfds : w₇.fds = w.fds := by
    funext j
    rw [quiet.fds, hfds₆]
    by_cases hj : j = ko
    · rw [hj, World.setDesc_fds_self, hbound ko hko]
    · rw [World.setDesc_fds_of_ne _ hj, hfds₅]
      by_cases hj' : j = ki
      · rw [hj', World.setDesc_fds_self, hbound ki hki]
      · rw [World.setDesc_fds_of_ne _ hj', copied.others j hj' hj, hothers j hj' hj]
  have since' : Since env w w₇ := since.setData hnew hfs (Nat.le_of_eq hnext.symm)
  have balanced := Balanced.of_eq env hfds since'.nextFd hbound
  refine ⟨⟨R₃.setData hfs ?_ balanced.bound, since', balanced⟩, ?_⟩
  · rw [quiet.mount, hmount₆, hmount₅, copied.mount]
  · rw [hfs]
    exact FS.node_setData_self _ _ _ hnode

/-- `copy_file` from the ram disk into a directory of the tree. -/
theorem copyFile_eventually (hno : env.choices.NoFaults) (hwhole : env.choices.NoShort)
    (R : Rootfs env V w) {p : List Name} (hp : V p = some .dir) (n : Name) {src : Name}
    {file : Option Bytes} (ram : RamFile env w src file) (out : Int) (srcText dstText : String) :
    Prog.Eventually (kernel env) I (fun fuel => copyFile out fuel (absPath [src])
      (mntPath (p ++ [n])) srcText dstText) w fun _ w' =>
      ∃ V', Leads env w V' w' ∧ Placed V (p ++ [n]) w w' (file.map .file) V' := by
  apply eventually_do
  cases file with
  | none =>
      have hfail := ram.openat_absent
      apply eventually_pos hfail.1
      apply Prog.eventually_of_ensures
      apply (printAll_ensures out _).mono
      rintro _ w' ⟨quiet, _⟩
      exact ⟨V, R.quiet (hfail.2.trans quiet), .kept (.inl rfl)⟩
  | some data =>
      obtain ⟨i, hi, hret, opened⟩ := ram.openat hno R.mounted
      apply eventually_neg (by omega)
      rw [hret]
      generalize (kernel env w (.openat AT_FDCWD (absPath [src]) O_RDONLY)).1 = w₁ at opened ⊢
      obtain ⟨R₁, since₁⟩ := R.opened opened
      have l₂ := R₁.unlinkat hno hp n
      apply eventually_do
      generalize (kernel env w₁ (.unlinkat AT_FDCWD (mntPath (p ++ [n])) false)).1 = w₂ at l₂ ⊢
      have hfds₂ : w₂.fds = w₁.fds := l₂.balanced.closed hno.noLeaks
      have since₂ := since₁.trans l₂.since
      have hp₂ : V.unlink (p ++ [n]) p = some .dir := by
        rw [V.unlink_of_not_below, hp]
        intro hpre
        have := hpre.length_le
        simp only [List.length_append, List.length_singleton] at this
        omega
      have hcreat := l₂.rootfs.openat_creat hno hp₂ n
      apply eventually_do
      by_cases hdir : V (p ++ [n]) = some .dir
      · have hsame : V.unlink (p ++ [n]) = V := by simp [View.unlink, hdir]
        rw [hsame] at hcreat l₂
        obtain ⟨hret₃, quiet₃⟩ := hcreat.1 hdir
        apply eventually_pos hret₃
        apply Prog.eventually_of_ensures
        apply Prog.Ensures.bind
        apply (printAll_ensures out _).mono
        rintro _ w₄ ⟨quiet₄, _⟩
        have l := l₂.trans (l₂.rootfs.quiet (quiet₃.trans quiet₄))
        apply Prog.ensures_call
        intro _
        apply Prog.ensures_pure
        refine ⟨V, R.opened_closed opened l, .kept (.inr hdir)⟩
      · obtain ⟨hnone, hput⟩ := View.unlink_self hdir
        obtain ⟨k, w₃, hkernel, R₃, since₃, hfresh, hnode, hfds₃, hnext₃⟩ := hcreat.2 hnone
        rw [hkernel]
        apply eventually_neg (by dsimp only; omega)
        have hlt : w.nextFd < w₂.nextFd := by
          have h₁ := opened.nextFd
          have h₂ := l₂.since.nextFd
          omega
        have hsource : w₃.fds w.nextFd = some (.file i 0) := by
          rw [hfds₃, hfds₂, opened.fds]
          simp [Nat.ne_of_lt hlt]
        have htarget : w₃.fds w₂.nextFd = some (.file k 0) := by
          rw [hfds₃]
          exact if_pos rfl
        have hi₃ : w₃.fs.node i = some (.file data) :=
          (since₂.trans since₃).node_eq hi (by simp)
        have hik : i ≠ k := by
          rintro rfl
          rw [hnode] at hi₃
          have hlive := w₂.fs.bounded i (by rw [since₂.node_eq hi (by simp)]; simp)
          omega
        have start : Copying w₃ w₃ w.nextFd w₂.nextFd i k data 0 := by
          refine ⟨Nat.zero_le _, ?_, hsource, htarget, fun _ _ _ => rfl, rfl, rfl⟩
          rw [List.take_zero, FS.setData_self _ _ _ hnode]
        apply Prog.Eventually.bind (copyLoop_grows _ _)
        refine ⟨data.length + 1, fun fuel hfuel => ?_⟩
        apply (copyLoop_ensures hno hwhole hi₃ hnode hik (Nat.ne_of_lt hlt) start
          (by omega)).mono
        rintro _ w₄ copied
        apply Prog.eventually_of_ensures
        apply Prog.ensures_call
        intro _
        apply Prog.ensures_call
        intro _
        apply (printAll_ensures out _).mono
        rintro _ w₇ ⟨quiet, _⟩
        have hothers : ∀ j, j ≠ w.nextFd → j ≠ w₂.nextFd → w₃.fds j = w.fds j := by
          intro j hj hj'
          rw [hfds₃, hfds₂, opened.fds]
          simp [hj, hj']
        obtain ⟨l, hcopied⟩ := copied.close hno R.bound R₃ (since₂.trans since₃)
          (Nat.le_trans since₂.next hfresh) hnode (Nat.le_refl _) (Nat.le_of_lt hlt) hothers quiet
        rw [hput] at l
        exact ⟨_, l, .fresh hdir (Nat.le_trans since₂.next hfresh) hcopied⟩

end CopyFile

/-! ### Step 7 -/

theorem copyFile_grows (out : Int) (src dst : Path) (srcText dstText : String) :
    Prog.Grows fun fuel => copyFile out fuel src dst srcText dstText := by
  intro fuel
  unfold copyFile
  apply (Prog.Below.refl _).bind
  intro inFd
  split
  · exact Prog.Below.refl _
  · apply (Prog.Below.refl _).bind
    intro _
    apply (Prog.Below.refl _).bind
    intro outFd
    split
    · exact Prog.Below.refl _
    · apply Prog.Below.bind (copyLoop_grows inFd outFd fuel)
      intro _
      exact Prog.Below.refl _

theorem installLinkers_grows (out : Int) : Prog.Grows fun fuel => installLinkers out fuel :=
  (Prog.Grows.const _).bind fun _ =>
    (copyFile_grows out _ _ _ _).bind fun _ =>
      (copyFile_grows out _ _ _ _).bind fun _ =>
        (copyFile_grows out _ _ _ _).bind fun _ => Prog.Grows.const _

def pArch : List Name := [nUsr, nLib, nArch]
def pArchLd : List Name := [nUsr, nLib, nArch, nLdLinux]
def pArchLd231 : List Name := [nUsr, nLib, nArch, nLd231]
def pLd : List Name := [nUsr, nLib, nLdLinux]

/-- Three new files at the places of the linkers; the inodes are those that happen to be free. -/
def withLinkers (V : View) (a b c : Ino) : View :=
  ((V.put pArchLd (View.one (.leaf a))).put pArchLd231 (View.one (.leaf b))).put pLd
    (View.one (.leaf c))

end Hub11.Recovery
