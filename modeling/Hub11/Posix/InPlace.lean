import Hub11.Posix.Calls
import Hub11.Posix.Paths

/-!
Directories that are opened without following a symbolic link.

`openat` with `O_DIRECTORY` but without `O_NOFOLLOW` opens what a link leads to.
`opensInPlace` says of a single call that it does not open a directory that way. A path
of names that is walked without links is a path of the tree.
-/

namespace Hub11.Posix

open Hub11.Effect

/-- If the call opens a directory as one, it finds it without following a link. A run in which every
call does so has no descriptor on a directory outside of the trees it walks over. -/
def World.opensInPlace (env : Env) (w : World) : Syscall → Bool
  | .openat fd path flags =>
      env.abi.mode flags ≠ .directory ||
        match w.base env fd path with
        | .ok start =>
            match w.fs.lookup (w.space env) start path.comps with
            | .found i =>
                !w.fs.isDir i || w.fs.walk (w.space env) 0 start path.comps = .found i
            | _ => true
        | .error _ => true
  | _ => true

theorem World.walk_of_opensInPlace {env : Env} {w : World} {fd : Int} {path : Path} {start i : Ino}
    {flags : Nat} (hmode : env.abi.mode flags = .directory)
    (h : w.opensInPlace env (.openat fd path flags) = true)
    (hbase : w.base env fd path = .ok start)
    (hi : w.fs.lookup (w.space env) start path.comps = .found i) (hdir : w.fs.isDir i = true) :
    w.fs.walk (w.space env) 0 start path.comps = .found i := by
  simpa [World.opensInPlace, hmode, hbase, hi, hdir] using h

theorem FS.walk_zero_link {fs : FS} {sp : Space} {i j : Ino} {n : Name} {t : Path}
    (hc : fs.child i n = some j) (ht : fs.node j = some (.symlink t)) (cs : List Comp) :
    fs.walk sp 0 i (.name n :: cs) = .fail .ELOOP := by
  obtain ⟨es, he⟩ := fs.isDir_iff.mp (fs.isDir_of_child hc)
  rw [fs.child_of_entries he] at hc
  simp only [FS.walk, FS.walkFrom, he, hc, ht]

/-- One name that is opened in place is not a link to a directory. -/
theorem World.linkAvoidsDirs_of_inPlace {env : Env} {w : World} {k : Nat} {i : Ino}
    {born seen : List Comp} {n : Name} {flags : Nat} (hmode : env.abi.mode flags = .directory)
    (hk : w.fds k = some (.dir i born seen))
    (h : w.opensInPlace env (.openat k (.ofName n) flags) = true) :
    w.LinkAvoidsDirs env i n := by
  intro j t hc ht l hl
  have hbase : w.base env k (.ofName n) = .ok i := World.base_of_open hk [.name n]
  by_contra hdir
  rw [Bool.not_eq_false] at hdir
  have hwalk := World.walk_of_opensInPlace hmode h hbase hl hdir
  rw [show (Path.ofName n).comps = [.name n] from rfl, FS.walk_zero_link hc ht] at hwalk
  cases hwalk

/-- Names that are walked without links are a path of the tree. -/
theorem FS.descend_of_walk_zero {fs : FS} {sp : Space} {r i : Ino} {p : List Name}
    (hcross : ∀ q j, fs.descend r q = some j → sp.cross j = j)
    (h : fs.walk sp 0 r (p.map .name) = .found i) : fs.descend r p = some i := by
  induction p generalizing r with
  | nil =>
      cases h
      rfl
  | cons n p ih =>
      rw [List.map_cons] at h
      cases hc : fs.child r n with
      | none =>
          exfalso
          cases he : fs.entries r with
          | none => simp [FS.walk, FS.walkFrom, he] at h
          | some es =>
              rw [fs.child_of_entries he] at hc
              simp only [FS.walk, FS.walkFrom, he, hc] at h
              split at h <;> cases h
      | some j =>
          have hlink : ∀ t, fs.node j ≠ some (.symlink t) := by
            intro t ht
            rw [FS.walk_zero_link hc ht] at h
            cases h
          have hstep := fs.descend_cons_of_child hc
          rw [FS.walk_cons_of_child 0 hc hlink, hcross [n] j (by rw [hstep]; rfl)] at h
          rw [hstep]
          exact ih (fun q l hq => hcross (n :: q) l (by rw [hstep]; exact hq)) h

/-! ### Error numbers -/

theorem FS.walkFrom_fail_code {fs : FS} {sp : Space} {onLink : Ino → List Comp → Walk} {e : Errno}
    (honLink : ∀ i cs, onLink i cs = .fail e → e.code ≤ 40) {i : Ino} {cs : List Comp}
    (h : fs.walkFrom sp onLink i cs = .fail e) : e.code ≤ 40 := by
  induction cs generalizing i with
  | nil => cases h
  | cons c cs ih =>
      unfold FS.walkFrom at h
      split at h
      · cases h
        decide
      · split at h
        · exact ih h
        · exact ih h
        · split at h
          · split at h <;> cases h
            decide
          · split at h
            · exact honLink _ _ h
            · exact ih h

/-- A lookup fails with one of a few numbers. -/
theorem FS.walk_fail_code {fs : FS} {sp : Space} {b : Nat} {i : Ino} {cs : List Comp} {e : Errno}
    (h : fs.walk sp b i cs = .fail e) : e.code ≤ 40 := by
  induction b generalizing i cs with
  | zero =>
      refine FS.walkFrom_fail_code (fun _ _ h => ?_) h
      cases h
      decide
  | succ b ih => exact FS.walkFrom_fail_code (fun _ _ h => ih h) h

/-- No call is made to fail with the number that stands for the working directory. -/
def Choices.Ordinary (c : Choices) : Prop := ∀ t e, c.fault t = some e → -(e.code : Int) ≠ AT_FDCWD

theorem World.resolve_fail_code {env : Env} {w : World} {fd : Int} {path : Path} {e : Errno}
    (h : w.resolve env fd path = .fail e) : e.code ≤ 40 := by
  unfold World.resolve at h
  cases hbase : w.base env fd path with
  | ok start =>
      rw [hbase] at h
      exact FS.walk_fail_code h
  | error e' =>
      rw [hbase] at h
      cases h
      unfold World.base at hbase
      split at hbase
      · cases hbase
      · split at hbase
        · cases hbase
        · split at hbase
          · split at hbase <;> cases hbase <;> decide
          · cases hbase
            decide

/-- The ways an open without `O_CREAT` can end: in an error of lookup or of opening, with a file
or with a directory. -/
theorem World.openPath_code (env : Env) (w : World) (fd : Int) (path : Path) {flags : Nat}
    (hmode : env.abi.mode flags ≠ .creat) :
    (∃ e, w.openPath env fd path flags = .error e ∧ e.code ≤ 40) ∨
    (∃ i, env.abi.mode flags ≠ .directory ∧
      w.openPath env fd path flags = .ok (w.openDesc (.file i 0))) ∨
    ∃ i es, env.abi.mode flags ≠ .direct ∧ w.resolve env fd path = .found i ∧
      w.fs.entries i = some es ∧
      w.openPath env fd path flags = .ok (w.openDesc (.dir i (listing es) [])) := by
  unfold World.openPath
  cases hres : w.resolve env fd path with
  | missing d n => exact .inl ⟨.ENOENT, if_neg hmode, by decide⟩
  | fail e => exact .inl ⟨e, rfl, World.resolve_fail_code hres⟩
  | found i =>
      generalize env.abi.mode flags = mode at hmode
      cases hn : w.fs.node i with
      | none =>
          refine .inl ⟨.ENOENT, ?_, by decide⟩
          simp only [World.openNode, hn]
      | some node =>
          cases node with
          | dir p es =>
              by_cases hdirect : mode = .direct
              · refine .inl ⟨.EINVAL, ?_, by decide⟩
                simp only [World.openNode, hn, hdirect]
              · refine .inr (.inr ⟨i, es, hdirect, rfl, by simp only [FS.entries, hn], ?_⟩)
                exact World.openNode_of_dir env hmode hdirect (by simp only [FS.entries, hn])
          | file data =>
              cases mode with
              | creat => exact absurd rfl hmode
              | rdonly => exact .inr (.inl ⟨i, by simp, by simp only [World.openNode, hn]⟩)
              | directory =>
                  refine .inl ⟨.ENOTDIR, ?_, by decide⟩
                  simp only [World.openNode, hn]
              | direct =>
                  by_cases hd : env.choices.direct i = true
                  · exact .inr (.inl ⟨i, by simp, by simp [World.openNode, hn, hd]⟩)
                  · exact .inl ⟨.EINVAL, by simp [World.openNode, hn, hd], by decide⟩
          | symlink t =>
              refine .inl ⟨.ELOOP, ?_, by decide⟩
              simp only [World.openNode, hn]

/-- Either nothing is opened, and the result does not stand for the working directory, or
a file is, or a directory. -/
theorem kernel_openat_code {env : Env} (hord : env.choices.Ordinary) (w : World) (fd : Int)
    (path : Path) {flags : Nat} (hmode : env.abi.mode flags ≠ .creat) :
    ((kernel env w (.openat fd path flags)).2.ret < 0 ∧
      (kernel env w (.openat fd path flags)).2.ret ≠ AT_FDCWD ∧
      Quiet w (kernel env w (.openat fd path flags)).1) ∨
    (∃ i, env.abi.mode flags ≠ .directory ∧
      (kernel env w (.openat fd path flags)).2.ret = w.nextFd ∧
      Opened w (kernel env w (.openat fd path flags)).1 (.file i 0)) ∨
    ∃ i es, env.abi.mode flags ≠ .direct ∧ w.resolve env fd path = .found i ∧
      w.fs.entries i = some es ∧
      (kernel env w (.openat fd path flags)).2.ret = w.nextFd ∧
      Opened w (kernel env w (.openat fd path flags)).1 (.dir i (listing es) []) := by
  have refused : ∀ e, w.attempt env (.openat fd path flags) = .error e →
      -(e.code : Int) ≠ AT_FDCWD →
      (kernel env w (.openat fd path flags)).2.ret < 0 ∧
        (kernel env w (.openat fd path flags)).2.ret ≠ AT_FDCWD ∧
        Quiet w (kernel env w (.openat fd path flags)).1 := by
    intro e he hcode
    obtain ⟨hneg, hquiet⟩ := kernel_refused env e rfl he
    refine ⟨hneg, ?_, hquiet⟩
    unfold kernel
    rw [he]
    exact hcode
  cases hf : env.choices.fault w.tick with
  | some e => exact .inl (refused e (by simp [World.attempt, hf]) (hord w.tick e hf))
  | none =>
      rcases World.openPath_code env w fd path hmode with
        ⟨e, he, hcode⟩ | ⟨i, hdir, hok⟩ | ⟨i, es, hdirect, hres, hes, hok⟩
      · refine .inl (refused e ?_ ?_)
        · simp only [World.attempt, hf]
          exact he
        · unfold AT_FDCWD
          omega
      · exact .inr (.inl ⟨i, hdir, kernel_opened env hf hok⟩)
      · exact .inr (.inr ⟨i, es, hdirect, hres, hes, kernel_opened env hf hok⟩)

end Hub11.Posix
