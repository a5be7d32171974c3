import Hub11.Posix.Paths
import Hub11.Recovery.CopyFile
import Hub11.Recovery.Layout

/-!
No file and no link that is there when `_start` is called is ever written to.

Most calls change directories only. The one file `_start` writes to is the one `copy_file`
opens after an `unlinkat` of the same path, and as long as that `unlinkat` is not made to
fail, the open does not find a file: it makes a new one, or nothing. So whatever is
replaced, is replaced by name, and other names of the same file still lead to its bytes.
-/

namespace Hub11.Posix

/-- A file or a link, no directory. -/
def Node.Leaf (x : Node) : Prop := ∀ p es, x ≠ .dir p es

namespace FS

variable {fs fs' fs'' : FS} {sp : Space} {i : Ino}

/-- A lookup that finds something has found the directory it is in, and an entry there. -/
theorem walkFrom_concat {f : Ino → List Comp → Walk} {x : Ino} {n : Name}
    (hf : ∀ c cs, f c (cs ++ [.name n]) = .found x → ∃ d i, f c cs = .found d ∧
      fs.child d n = some i ∧ ((∀ t, fs.node i ≠ some (.symlink t)) → x = sp.cross i))
    {cur : Ino} {cs : List Comp} (h : fs.walkFrom sp f cur (cs ++ [.name n]) = .found x) :
    ∃ d i, fs.walkFrom sp f cur cs = .found d ∧ fs.child d n = some i ∧
      ((∀ t, fs.node i ≠ some (.symlink t)) → x = sp.cross i) := by
  induction cs generalizing cur with
  | nil =>
      rw [List.nil_append, walkFrom] at h
      cases he : fs.entries cur with
      | none => simp [he] at h
      | some es =>
          simp only [he] at h
          cases hi : dirGet es n with
          | none => simp [hi] at h
          | some i =>
              refine ⟨cur, i, rfl, by rw [fs.child_of_entries he, hi], fun hlink => ?_⟩
              simp only [hi] at h
              simpa [walkFrom, eq_comm] using h
  | cons c cs ih =>
      rw [List.cons_append, walkFrom] at h
      rw [walkFrom]
      cases he : fs.entries cur with
      | none => simp [he] at h
      | some es =>
          simp only [he] at h ⊢
          cases c with
          | dot => exact ih h
          | dotdot => exact ih h
          | name m =>
              dsimp only at h ⊢
              cases hi : dirGet es m with
              | none => simp [hi] at h
              | some i =>
                  simp only [hi] at h ⊢
                  split at h
                  · rename_i t ht
                    rw [← List.append_assoc] at h
                    exact hf _ _ h
                  · exact ih h

theorem walk_concat {b : Nat} {cur x : Ino} {cs : List Comp} {n : Name}
    (h : fs.walk sp b cur (cs ++ [.name n]) = .found x) :
    ∃ d i, fs.walk sp b cur cs = .found d ∧ fs.child d n = some i ∧
      ((∀ t, fs.node i ≠ some (.symlink t)) → x = sp.cross i) := by
  induction b generalizing cur cs with
  | zero => exact walkFrom_concat (fun _ _ hf => by cases hf) h
  | succ b ih => exact walkFrom_concat (fun _ _ => ih) h

theorem lookup_concat {cur x : Ino} {cs : List Comp} {n : Name}
    (h : fs.lookup sp cur (cs ++ [.name n]) = .found x) :
    ∃ d i, fs.lookup sp cur cs = .found d ∧ fs.child d n = some i ∧
      ((∀ t, fs.node i ≠ some (.symlink t)) → x = sp.cross i) :=
  walk_concat h

/-! ### Files and links in the table -/

/-- What is a file or a link at an inode is the same in both tables. A directory may have turned
into another one meanwhile. -/
def LeafSame (fs fs' : FS) (i : Ino) : Prop :=
  ∀ x : Node, x.Leaf → (fs'.node i = some x ↔ fs.node i = some x)

theorem LeafSame.refl (fs : FS) (i : Ino) : LeafSame fs fs i := fun _ _ => Iff.rfl

theorem LeafSame.trans (h : LeafSame fs fs' i) (h' : LeafSame fs' fs'' i) : LeafSame fs fs'' i :=
  fun x hx => (h' x hx).trans (h x hx)

/-- Directories stay directories, and all else is kept. -/
theorem leafSame_modify {f : Node → Option Node} (k : Ino) (hfile : ∀ d, f (.file d) = some (.file d))
    (hlink : ∀ t, f (.symlink t) = some (.symlink t))
    (hdir : ∀ p es, ∃ p' es', f (.dir p es) = some (.dir p' es')) : LeafSame fs (fs.modify k f) i := by
  intro x hx
  rw [node_modify]
  by_cases hi : i = k
  · subst hi
    rw [if_pos rfl]
    cases hn : fs.node i with
    | none => simp
    | some y =>
        rw [Option.bind_some]
        cases y with
        | dir p es =>
            obtain ⟨p', es', hf⟩ := hdir p es
            rw [hf]
            constructor
            · exact fun h => absurd (Option.some.inj h).symm (hx p' es')
            · exact fun h => absurd (Option.some.inj h).symm (hx p es)
        | file d => rw [hfile d]
        | symlink t => rw [hlink t]
  · rw [if_neg hi]

theorem leafSame_delEntry (d : Ino) (n : Name) : LeafSame fs (fs.delEntry d n) i :=
  leafSame_modify d (fun _ => rfl) (fun _ => rfl) fun _ _ => ⟨_, _, rfl⟩

theorem leafSame_setEntry (d : Ino) (n : Name) (j : Ino) : LeafSame fs (fs.setEntry d n j) i :=
  leafSame_modify d (fun _ => rfl) (fun _ => rfl) fun _ _ => ⟨_, _, rfl⟩

theorem leafSame_setParent (j p : Ino) : LeafSame fs (fs.setParent j p) i :=
  leafSame_modify j (fun _ => rfl) (fun _ => rfl) fun _ _ => ⟨_, _, rfl⟩

theorem leafSame_drop {j : Ino} (hj : fs.isDir j = true) : LeafSame fs (fs.drop j) i := by
  intro x hx
  rw [drop, node_modify]
  by_cases hi : i = j
  · subst hi
    obtain ⟨es, he⟩ := fs.isDir_iff.mp hj
    unfold entries at he
    split at he
    · rename_i p es' hn
      simp only [if_pos, hn, Option.bind_some, reduceCtorEq, false_iff]
      exact fun h => absurd (Option.some.inj h).symm (hx p es')
    · cases he
  · rw [if_neg hi]

theorem leafSame_link (d : Ino) (n : Name) (node : Node) (hi : i.num < fs.next) :
    LeafSame fs (fs.link d n node) i := by
  refine LeafSame.trans ?_ (leafSame_setEntry d n _)
  intro x _
  rw [node_alloc, if_neg]
  rintro rfl
  exact absurd hi (Nat.lt_irrefl _)

theorem leafSame_relink (s : Ino) (n : Name) (d : Ino) (m : Name) (j : Ino) (old : Option Ino) :
    LeafSame fs (fs.relink s n d m j old) i := by
  have hmoved : LeafSame fs (((fs.delEntry s n).setEntry d m j).setParent j d) i :=
    ((leafSame_delEntry s n).trans (leafSame_setEntry d m j)).trans (leafSame_setParent j d)
  unfold relink
  cases old with
  | none => exact hmoved
  | some k =>
      dsimp only
      split
      · rename_i hk
        refine hmoved.trans (leafSame_drop ?_)
        rw [← obj_eq_dir_iff, obj_setParent, obj_setEntry, obj_delEntry, obj_eq_dir_iff]
        exact hk
      · exact hmoved

end FS

/-- Neither writes to a file nor truncates one. -/
def Gentle : Syscall → Prop
  | .write _ _ => False
  | .openat _ _ flags => flags &&& O_CREAT = 0
  | _ => True

theorem Abi.mode_of_gentle (abi : Abi) {flags : Nat} (h : flags &&& O_CREAT = 0) :
    abi.mode flags ≠ .creat := by
  unfold Abi.mode
  rw [if_neg (not_not.mpr h)]
  split
  · simp
  · split <;> simp

theorem Outcome.leafSame {env : Env} {w w' : World} {op : Syscall} (h : Outcome env w op w')
    (hop : Gentle op) :
    (∀ i : Ino, i.num < w.fs.next → w.fs.LeafSame w'.fs i) ∧ w.fs.next ≤ w'.fs.next := by
  have create : ∀ {d n node fs}, w.fs.create d n node = .ok fs →
      (∀ i : Ino, i.num < w.fs.next → w.fs.LeafSame fs i) ∧ w.fs.next ≤ fs.next := by
    intro d n node fs hfs
    obtain ⟨_, _, rfl⟩ := FS.create_ok hfs
    exact ⟨fun i hi => FS.leafSame_link d n node hi, Nat.le_succ _⟩
  cases h with
  | mkdir hres hfs => exact create hfs
  | symlink hres hfs => exact create hfs
  | openNew hmode _ _ => exact absurd hmode (env.abi.mode_of_gentle hop)
  | openTrunc hmode _ _ => exact absurd hmode (env.abi.mode_of_gentle hop)
  | write hfd hdata => exact absurd hop id
  | unlink hres hfs =>
      obtain ⟨_, _, _, rfl⟩ := FS.unlink_ok hfs
      exact ⟨fun i _ => FS.leafSame_delEntry _ _, Nat.le_refl _⟩
  | rmdir hres hfs =>
      obtain ⟨j, _, hempty, _, rfl⟩ := FS.rmdir_ok hfs
      refine ⟨fun i _ => (FS.leafSame_delEntry _ _).trans (FS.leafSame_drop ?_), Nat.le_refl _⟩
      rw [← FS.obj_eq_dir_iff, FS.obj_delEntry, FS.obj_eq_dir_iff]
      exact w.fs.isDir_iff.mpr ⟨[], w.fs.isEmptyDir_iff.mp hempty⟩
  | rename hres hres' hfs =>
      rcases FS.rename_cases hfs with rfl | ⟨_, _, _, j, _, _, rfl, _⟩
      · exact ⟨fun i _ => .refl _ i, Nat.le_refl _⟩
      · exact ⟨fun i _ => FS.leafSame_relink _ _ _ _ _ _,
          Nat.le_of_eq (FS.next_relink _ _ _ _ _ _).symm⟩
  | _ => exact ⟨fun i _ => .refl _ i, Nat.le_refl _⟩

end Hub11.Posix

namespace Hub11.Recovery

open Hub11.Effect Hub11.Posix

/-- The files and links of `w₀` are what they were, and only the disk has been mounted. This is the
invariant of every run of `_start`. -/
structure Untouched (env : Env) (w₀ w : World) : Prop where
  leaves : ∀ i, i.num < w₀.fs.next → w₀.fs.LeafSame w.fs i
  next : w₀.fs.next ≤ w.fs.next
  mount : ∀ c t, w.mount = some (c, t) → t = env.diskRoot

section Calls

variable {env : Env} {w₀ w : World}

theorem Untouched.gentle (h : Untouched env w₀ w) {op : Syscall} (hop : Gentle op) :
    Untouched env w₀ (kernel env w op).1 := by
  obtain ⟨w', houtcome, heq⟩ := kernel_outcome env w op
  have hmount : ∀ c t, w'.mount = some (c, t) → t = env.diskRoot := by
    cases houtcome with
    | mount hres hdir hnone =>
        rintro c t ⟨⟩
        rfl
    | umount => exact fun c t ht => by cases ht
    | _ => exact h.mount
  obtain ⟨hleaves, hnext⟩ := houtcome.leafSame hop
  rw [heq]
  exact ⟨fun i hi => (h.leaves i hi).trans (hleaves i (Nat.lt_of_lt_of_le hi h.next)),
    Nat.le_trans h.next hnext, hmount⟩

theorem Untouched.quiet (h : Untouched env w₀ w) {w' : World} (quiet : Quiet w w') :
    Untouched env w₀ w' := by
  refine ⟨?_, ?_, ?_⟩
  · rw [quiet.fs]
    exact h.leaves
  · rw [quiet.fs]
    exact h.next
  · rw [quiet.mount]
    exact h.mount

/-- A change to an inode that was not there in `w₀`. -/
theorem Untouched.setData (h : Untouched env w₀ w) {w' : World} {k : Ino} {data : Bytes}
    (hk : w₀.fs.next ≤ k.num) (hfs : w'.fs = w.fs.setData k data) (hmount : w'.mount = w.mount) :
    Untouched env w₀ w' := by
  refine ⟨fun i hi x hx => ?_, ?_, hmount ▸ h.mount⟩
  · have hik : i ≠ k := by
      rintro rfl
      omega
    rw [hfs, FS.node_setData_of_ne _ _ _ _ hik]
    exact h.leaves i hi x hx
  · rw [hfs]
    exact h.next

/-- No file is mounted, so what a directory leads to is no file. -/
theorem cross_not_file (htop : ∀ c t data, w.mount = some (c, t) → w.fs.node t ≠ some (.file data))
    {i : Ino} (hdir : w.fs.isDir i = true) (data : Bytes) :
    w.fs.node ((w.space env).cross i) ≠ some (.file data) := by
  intro hfile
  unfold World.space Space.cross at hfile
  split at hfile
  · rename_i c t hmount
    split at hfile
    · exact htop c t data hmount hfile
    · simp [FS.isDir, FS.entries, hfile] at hdir
  · simp [FS.isDir, FS.entries, hfile] at hdir

/-- A call that fails leaves the lookup of a path as it was. -/
theorem resolve_after_error {op : Syscall} {e : Errno} (hclose : w.refused env op = w)
    (he : w.exec env op = .error e) {cs : List Comp} {n : Name} {dst : Path}
    (hdst : dst.comps = cs ++ [.name n]) {x : Ino}
    (hres : (kernel env w op).1.resolve env AT_FDCWD dst = .found x) :
    ∃ d i, w.fs.lookup (w.space env) env.ramRoot cs = .found d ∧ w.fs.child d n = some i ∧
      ((∀ t, w.fs.node i ≠ some (.symlink t)) → x = (w.space env).cross i) := by
  have quiet := (kernel_error env e hclose he).2
  rw [World.resolve_eq env quiet.fs quiet.fds quiet.mount, resolve_cwd, hdst] at hres
  exact FS.lookup_concat hres

/-- After an `unlinkat` that is not made to fail, its path does not lead to a file. -/
theorem not_file_after_unlinkat {cs : List Comp} {n : Name} {dst : Path}
    (hdst : dst.comps = cs ++ [.name n]) (hfault : env.choices.fault w.tick = none)
    (htop : ∀ c t data, w.mount = some (c, t) → w.fs.node t ≠ some (.file data)) (x : Ino)
    (data : Bytes) :
    (kernel env w (.unlinkat AT_FDCWD dst false)).1.resolve env AT_FDCWD dst = .found x →
      (kernel env w (.unlinkat AT_FDCWD dst false)).1.fs.node x ≠ some (.file data) := by
  have hparent : w.resolveParent env AT_FDCWD dst =
      w.fs.lookupParent (w.space env) env.ramRoot (cs ++ [.name n]) := by
    rw [resolveParent_cwd, hdst]
  rw [FS.lookupParent_append] at hparent
  have hexec : ∀ r, w.resolveParent env AT_FDCWD dst = r →
      w.exec env (.unlinkat AT_FDCWD dst false) =
        r.bind fun dn => w.applyFS (w.fs.unlink dn.1 dn.2) := by
    rintro r rfl
    rfl
  cases hcs : w.fs.lookup (w.space env) env.ramRoot cs with
  | missing d m =>
      rw [hcs] at hparent
      intro hres
      obtain ⟨d', i, hd', _⟩ := resolve_after_error rfl (hexec _ hparent) hdst hres
      rw [hcs] at hd'
      cases hd'
  | fail e =>
      rw [hcs] at hparent
      intro hres
      obtain ⟨d', i, hd', _⟩ := resolve_after_error rfl (hexec _ hparent) hdst hres
      rw [hcs] at hd'
      cases hd'
  | found d =>
      rw [hcs] at hparent
      cases hu : w.fs.unlink d n with
      | error e =>
          -- there is a directory, or nothing
          intro hres hfile
          have herr : w.exec env (.unlinkat AT_FDCWD dst false) = .error e := by
            rw [hexec _ hparent]
            simp only [Except.bind, hu]
            rfl
          obtain ⟨d', i, hd', hi, hcross⟩ := resolve_after_error rfl herr hdst hres
          rw [hcs] at hd'
          cases hd'
          have hdir : w.fs.isDir i = true := by
            by_contra hleaf
            simp [FS.unlink, hi, hleaf] at hu
          rw [(kernel_error env e rfl herr).2.fs, hcross (FS.not_symlink_of_isDir hdir)] at hfile
          exact cross_not_file htop hdir data hfile
      | ok fs =>
          obtain ⟨i, hi, _, rfl⟩ := FS.unlink_ok hu
          have hok : w.attempt env (.unlinkat AT_FDCWD dst false) =
              .ok ({ w with fs := w.fs.delEntry d n }, { ret := 0 }) := by
            simp only [World.attempt, hfault]
            rw [hexec _ hparent]
            simp only [Except.bind, hu]
            rfl
          intro hres
          rw [kernel_ok env hok, resolve_cwd, hdst] at hres
          obtain ⟨d', j, hd', hj, _⟩ := FS.lookup_concat hres
          have hbefore := (FS.extends_delEntry d n).lookup hd'
          have hdd : d = d' := by
            have := hcs.symm.trans hbefore
            cases this
            rfl
          subst hdd
          change (w.fs.delEntry d n).child d n = some j at hj
          rw [FS.child_delEntry, if_pos ⟨rfl, rfl⟩] at hj
          cases hj

/-- Opening for writing where there is no file makes a new one, or fails. -/
theorem Untouched.creat (h : Untouched env w₀ w) {dst : Path}
    (hfree : ∀ x data, w.resolve env AT_FDCWD dst = .found x → w.fs.node x ≠ some (.file data)) :
    Untouched env w₀ (kernel env w (.openat AT_FDCWD dst creatFlags)).1 ∧
      ((kernel env w (.openat AT_FDCWD dst creatFlags)).2.ret < 0 ∨
        ∃ k, w₀.fs.next ≤ k.num ∧
          (kernel env w (.openat AT_FDCWD dst creatFlags)).2.ret = w.nextFd ∧
          (kernel env w (.openat AT_FDCWD dst creatFlags)).1.fds w.nextFd = some (.file k 0)) := by
  have hfail : ∀ e, w.exec env (.openat AT_FDCWD dst creatFlags) = .error e →
      Untouched env w₀ (kernel env w (.openat AT_FDCWD dst creatFlags)).1 ∧
        (kernel env w (.openat AT_FDCWD dst creatFlags)).2.ret < 0 := by
    intro e he
    obtain ⟨hret, quiet⟩ := kernel_error env e rfl he
    exact ⟨h.quiet quiet, hret⟩
  have hopen : w.exec env (.openat AT_FDCWD dst creatFlags) = w.openPath env AT_FDCWD dst creatFlags := rfl
  unfold World.openPath at hopen
  cases hres : w.resolve env AT_FDCWD dst with
  | fail e =>
      rw [hres] at hopen
      exact (hfail e hopen).imp_right .inl
  | found x =>
      rw [hres] at hopen
      have herr : ∃ e, w.exec env (.openat AT_FDCWD dst creatFlags) = .error e := by
        rw [hopen]
        dsimp only
        unfold World.openNode
        cases hn : w.fs.node x with
        | none => exact ⟨_, rfl⟩
        | some node =>
            cases node with
            | dir p es => exact ⟨.EISDIR, by rw [Abi.mode_creat]⟩
            | file data => exact absurd hn (hfree x data hres)
            | symlink t => exact ⟨_, rfl⟩
      obtain ⟨e, he⟩ := herr
      exact (hfail e he).imp_right .inl
  | missing d n =>
      rw [hres] at hopen
      simp only [Abi.mode_creat, if_true] at hopen
      cases hcreate : w.fs.create d n (.file []) with
      | error e =>
          rw [hcreate] at hopen
          exact (hfail e hopen).imp_right .inl
      | ok fs =>
          rw [hcreate] at hopen
          obtain ⟨_, _, rfl⟩ := FS.create_ok hcreate
          cases hfault : env.choices.fault w.tick with
          | some e =>
              obtain ⟨hret, quiet⟩ := kernel_fault env hfault (.openat AT_FDCWD dst creatFlags) rfl
              exact ⟨h.quiet quiet, .inl hret⟩
          | none =>
              have hok : w.attempt env (.openat AT_FDCWD dst creatFlags) =
                  .ok ({ w with fs := w.fs.link d n (.file []) }.openDesc
                    (.file (w.fs.fresh d.dev) 0)) := by
                simp only [World.attempt, hfault, hopen]
                rfl
              rw [kernel_ok env hok]
              refine ⟨⟨fun i hi => ?_, Nat.le_succ_of_le h.next, h.mount⟩,
                .inr ⟨w.fs.fresh d.dev, h.next, rfl, if_pos rfl⟩⟩
              exact (h.leaves i hi).trans (FS.leafSame_link d n _ (Nat.lt_of_lt_of_le hi h.next))

end Calls

/-! ### Programs -/

/-- An `unlinkat` of a file is not made to fail. If it were, the `creat` after it would find the old
file and truncate it. -/
def UnlinkSure (env : Env) (w : World) : Syscall → Prop
  | .unlinkat _ _ false => env.choices.fault w.tick = none
  | _ => True

/-- Every call of the program, in states where `UnlinkSure` holds, leaves the files and
links of `w₀` untouched, and so does the program. -/
def Guarded {α : Type} (env : Env) (w₀ : World) (p : Sys α) (w : World) : Prop :=
  p.Upholds (kernel env) (UnlinkSure env) (fun w op => Untouched env w₀ (kernel env w op).1)
    (fun _ w' => Untouched env w₀ w') w

section Programs

variable {env : Env} {w₀ w : World} {α β : Type}

theorem Guarded.bind {p : Sys α} {f : α → Sys β} (hp : Guarded env w₀ p w)
    (hf : ∀ a w', Untouched env w₀ w' → Guarded env w₀ (f a) w') : Guarded env w₀ (p >>= f) w :=
  Prog.Upholds.bind (hp.mono hf)

theorem guarded_of_gentle {p : Sys α} (hp : p.Issues Gentle) (h : Untouched env w₀ w) :
    Guarded env w₀ p w := by
  induction p generalizing w with
  | ret a => exact h
  | spent => trivial
  | call op next ih =>
      intro _
      exact ⟨h.gentle hp.1, ih _ (hp.2 _) (h.gentle hp.1)⟩

/-- The loop writes to the file of its second descriptor only. -/
theorem copyLoop_guarded {k : Ino} (hk : w₀.fs.next ≤ k.num) {ki ko : Nat} (hne : ko ≠ ki)
    (fuel : Nat) {off : Nat} (h : Untouched env w₀ w) (hout : w.fds ko = some (.file k off)) :
    Guarded env w₀ (copyLoop fuel ki ko) w := by
  induction fuel generalizing w off with
  | zero => trivial
  | succ fuel ih =>
      have h₁ : Untouched env w₀ (kernel env w (.read ki 4096)).1 := h.gentle trivial
      have hout₁ : (kernel env w (.read ki 4096)).1.fds ko = some (.file k off) := by
        obtain ⟨w', houtcome, heq⟩ := kernel_outcome env w (.read ki 4096)
        rw [heq]
        cases houtcome with
        | same => exact hout
        | read hfd => exact (w.setDesc_fds_of_ne hne _).trans hout
      intro _
      refine ⟨h₁, ?_⟩
      change Guarded env w₀ (if (kernel env w (.read ki 4096)).2.ret > 0 then _ else _) _
      generalize kernel env w (.read ki 4096) = kr at h₁ hout₁
      obtain ⟨w₁, r⟩ := kr
      split
      · have hwrite : Untouched env w₀ (kernel env w₁ (.write ko r.data)).1 ∧
            ∃ off', (kernel env w₁ (.write ko r.data)).1.fds ko = some (.file k off') := by
          obtain ⟨w', houtcome, heq⟩ := kernel_outcome env w₁ (.write ko r.data)
          rw [heq]
          cases houtcome with
          | same => exact ⟨⟨h₁.leaves, h₁.next, h₁.mount⟩, off, hout₁⟩
          | write hfd hdata =>
              cases hfd.symm.trans hout₁
              exact ⟨h₁.setData hk rfl rfl, _, World.setDesc_fds_self _ _ _⟩
        obtain ⟨hwritten, off', hout'⟩ := hwrite
        intro _
        exact ⟨hwritten, ih hwritten hout'⟩
      · exact h₁

theorem openat_gentle (fd : Int) (path : Path) {flags : Nat} (h : flags &&& O_CREAT = 0) :
    (call (.openat fd path flags)).Issues Gentle :=
  issues_call h

theorem print_gentle (out : Int) (t : Text) : (print out t).Issues Gentle := issues_last trivial

theorem printAll_gentle (out : Int) (texts : List String) : (printAll out texts).Issues Gentle :=
  issues_printAll fun _ _ => trivial

/-- `copy_file` to a path below `/mnt`. -/
theorem copyFile_guarded (h : Untouched env w₀ w) (hroot : w₀.fs.isDir env.diskRoot = true)
    (out : Int) (fuel : Nat) (src : Path) {dst : Path} {cs : List Comp} {n : Name}
    (hdst : dst.comps = cs ++ [.name n]) (srcText dstText : String) :
    Guarded env w₀ (copyFile out fuel src dst srcText dstText) w := by
  have hleaf : ∀ data, (Node.file data).Leaf := fun data p es => by simp
  have hold : env.diskRoot.num < w₀.fs.next := by
    apply w₀.fs.bounded
    intro hnone
    simp [FS.isDir, FS.entries, hnone] at hroot
  intro _
  have hgentle : Gentle (.openat AT_FDCWD src O_RDONLY) := rfl
  refine ⟨h.gentle hgentle, ?_⟩
  change Guarded env w₀ (if (kernel env w (.openat AT_FDCWD src O_RDONLY)).2.ret < 0 then _ else _) _
  rcases kernel_openat env w AT_FDCWD src O_RDONLY (by simp) with ⟨hret, _⟩ | ⟨desc, hret, opened⟩
  · rw [if_pos hret]
    exact guarded_of_gentle (printAll_gentle out _) (h.gentle hgentle)
  · rw [if_neg (by omega), hret]
    have h₁ : Untouched env w₀ (kernel env w (.openat AT_FDCWD src O_RDONLY)).1 := h.gentle hgentle
    generalize (kernel env w (.openat AT_FDCWD src O_RDONLY)).1 = w₁ at h₁ opened
    have hnext₁ := opened.nextFd
    intro hsure
    have h₂ : Untouched env w₀ (kernel env w₁ (.unlinkat AT_FDCWD dst false)).1 := h₁.gentle trivial
    refine ⟨h₂, ?_⟩
    have htop : ∀ c t data, w₁.mount = some (c, t) → w₁.fs.node t ≠ some (.file data) := by
      intro c t data hmount hfile
      cases h₁.mount c t hmount
      have hfile₀ := (h₁.leaves _ hold _ (hleaf data)).mp hfile
      simp [FS.isDir, FS.entries, hfile₀] at hroot
    have hfree := not_file_after_unlinkat hdst hsure htop
    have hnext₂ : (kernel env w₁ (.unlinkat AT_FDCWD dst false)).1.nextFd = w₁.nextFd := by
      obtain ⟨w', houtcome, heq⟩ := kernel_outcome env w₁ (.unlinkat AT_FDCWD dst false)
      rw [heq]
      cases houtcome <;> rfl
    generalize (kernel env w₁ (.unlinkat AT_FDCWD dst false)).1 = w₂ at h₂ hfree hnext₂
    obtain ⟨h₃, hopened⟩ := h₂.creat hfree
    intro _
    refine ⟨h₃, ?_⟩
    change Guarded env w₀ (if (kernel env w₂ (.openat AT_FDCWD dst creatFlags)).2.ret < 0 then _ else _) _
    rcases hopened with hret₃ | ⟨k, hk, hret₃, hfd⟩
    · rw [if_pos hret₃]
      apply guarded_of_gentle _ h₃
      apply (printAll_gentle out _).bind
      intro _
      exact issues_last trivial
    · rw [if_neg (by omega), hret₃]
      apply (copyLoop_guarded hk (by omega) fuel h₃ hfd).bind
      intro _ w' h'
      apply guarded_of_gentle _ h'
      apply issues_after trivial
      apply issues_after trivial
      exact printAll_gentle out _

end Programs

/-! ### The phases -/

section Phases

variable {env : Env} {w₀ w : World}

theorem mergeSubdir_gentle {recurse : Int → Int → Sys Unit} (h : ∀ s d, (recurse s d).Issues Gentle)
    (srcFd dstFd : Int) (d : Comp) : (mergeSubdir recurse srcFd dstFd d).Issues Gentle := by
  apply (openat_gentle _ _ rfl).bind
  intro subSrc
  apply issues_after trivial
  apply (openat_gentle _ _ rfl).bind
  intro subDst
  apply (issues_onlyIf (h subSrc subDst)).bind
  intro _
  apply (issues_onlyIf (issues_last trivial)).bind
  intro _
  apply (issues_onlyIf (issues_last trivial)).bind
  intro _
  exact issues_last trivial

theorem mergeDir_gentle (out : Int) (fuel : Nat) (srcFd dstFd : Int) (indent : String) :
    (mergeDir out fuel srcFd dstFd indent).Issues Gentle := by
  induction fuel generalizing srcFd dstFd indent with
  | zero => trivial
  | succ fuel ih =>
      apply (Prog.issues_perform trivial).bind
      intro r
      refine issues_ite ?_ trivial
      apply (Prog.Issues.forM (fun d => ?_) r.dents).bind
      · intro _
        exact ih srcFd dstFd indent
      · refine issues_ite ?_ trivial
        apply (issues_last trivial).bind
        intro _
        apply (issues_last trivial).bind
        intro _
        apply (issues_last trivial).bind
        intro _
        apply (issues_call trivial).bind
        intro ret
        apply issues_ite (issues_last trivial)
        apply (issues_last trivial).bind
        intro _
        exact mergeSubdir_gentle (fun s d => ih s d _) srcFd dstFd d

theorem mergeFrom_gentle (out : Int) (fuel : Nat) (srcFd dstLib : Int) :
    (mergeFrom out fuel srcFd dstLib).Issues Gentle := by
  apply (mergeDir_gentle out fuel srcFd dstLib _).bind
  intro _
  exact issues_last trivial

theorem mergePhases_gentle (out : Int) (fuel : Nat) : (mergePhases out fuel).Issues Gentle := by
  apply (openat_gentle _ _ rfl).bind
  intro dstLib
  have old : (mergeLibOld out fuel dstLib).Issues Gentle := by
    apply (openat_gentle _ _ rfl).bind
    intro oldLib
    refine issues_ite ?_ trivial
    apply (issues_last trivial).bind
    intro _
    apply (mergeFrom_gentle out fuel oldLib dstLib).bind
    intro _
    exact issues_last trivial
  have lib : (mergeLib out fuel dstLib).Issues Gentle := by
    apply (Prog.issues_perform trivial).bind
    intro st
    refine issues_ite ?_ trivial
    apply (issues_last trivial).bind
    intro _
    apply (openat_gentle _ _ rfl).bind
    intro curLib
    apply (issues_onlyIf (mergeFrom_gentle out fuel curLib dstLib)).bind
    intro _
    exact issues_last trivial
  apply old.bind
  intro _
  apply lib.bind
  intro _
  exact issues_onlyIf (issues_last trivial)

theorem mergeAll_gentle (out : Int) (fuel : Nat) : (mergeAll out fuel).Issues Gentle := by
  apply (issues_last trivial).bind
  intro _
  have dirs : ensureDirs.Issues Gentle :=
    issues_after trivial <| issues_after trivial <| issues_after trivial <|
      issues_after trivial <| issues_last trivial
  apply dirs.bind
  intro _
  exact mergePhases_gentle out fuel

theorem openOutput_gentle : openOutput.Issues Gentle := by
  apply issues_after trivial
  apply issues_after trivial
  apply (issues_call trivial).bind
  intro cfd
  trivial

theorem waitForDisk_gentle (out : Int) (k : Nat) (ret : Int) :
    (waitForDisk out k ret).Issues Gentle := by
  induction k generalizing ret with
  | zero => trivial
  | succ k ih =>
      apply (issues_call trivial).bind
      intro ret'
      apply issues_ite
      · trivial
      · apply (issues_last trivial).bind
        intro _
        apply (issues_last trivial).bind
        intro _
        exact ih ret'

theorem mountRootfs_gentle (out : Int) : (mountRootfs out).Issues Gentle := by
  apply (printAll_gentle out _).bind
  intro _
  apply issues_after trivial
  apply (issues_last trivial).bind
  intro _
  exact waitForDisk_gentle out 15 (-1)

theorem restoreSymlinks_gentle (out : Int) : (restoreSymlinks out).Issues Gentle := by
  have link : ∀ n target, (restoreLink n target).Issues Gentle := fun _ _ =>
    issues_after trivial <| issues_after trivial <| issues_last trivial
  apply (issues_last trivial).bind
  intro _
  apply (link _ _).bind
  intro _
  exact link _ _

theorem verifyLinker_gentle (out : Int) : (verifyLinker out).Issues Gentle := by
  apply (issues_last trivial).bind
  intro _
  apply (openat_gentle _ _ rfl).bind
  intro tfd
  apply issues_ite
  · apply (issues_last trivial).bind
    intro _
    exact issues_last trivial
  · exact issues_last trivial

theorem finish_gentle (out : Int) : (finish out).Issues Gentle := by
  apply (issues_last trivial).bind
  intro _
  apply issues_after trivial
  apply (issues_last trivial).bind
  intro _
  apply issues_after trivial
  apply issues_after trivial
  exact printAll_gentle out _

/-- Each of the three targets ends with the name of a linker, so there is a directory to take
the old one out of. -/
theorem installLinkers_guarded (h : Untouched env w₀ w) (hroot : w₀.fs.isDir env.diskRoot = true)
    (out : Int) (fuel : Nat) : Guarded env w₀ (installLinkers out fuel) w := by
  apply (guarded_of_gentle (print_gentle out _) h).bind
  intro _ w₁ h₁
  apply (copyFile_guarded h₁ hroot out fuel _
    (show (mntPath [nUsr, nLib, nArch, nLdLinux]).comps =
      [.name nMnt, .name nUsr, .name nLib, .name nArch] ++ [.name nLdLinux] from rfl) _ _).bind
  intro _ w₂ h₂
  apply (copyFile_guarded h₂ hroot out fuel _
    (show (mntPath [nUsr, nLib, nArch, nLd231]).comps =
      [.name nMnt, .name nUsr, .name nLib, .name nArch] ++ [.name nLd231] from rfl) _ _).bind
  intro _ w₃ h₃
  apply (copyFile_guarded h₃ hroot out fuel _
    (show (mntPath [nUsr, nLib, nLdLinux]).comps =
      [.name nMnt, .name nUsr, .name nLib] ++ [.name nLdLinux] from rfl) _ _).bind
  intro _ w₄ h₄
  exact guarded_of_gentle (issues_after trivial (issues_last trivial)) h₄

theorem start_guarded (h : Untouched env w₀ w) (hroot : w₀.fs.isDir env.diskRoot = true)
    (fuel : Nat) : Guarded env w₀ (start fuel) w := by
  apply (guarded_of_gentle openOutput_gentle h).bind
  intro out w₁ h₁
  apply (guarded_of_gentle (mountRootfs_gentle out) h₁).bind
  intro ret w₂ h₂
  split
  · apply (guarded_of_gentle (printAll_gentle out _) h₂).bind
    intro _ w₃ h₃
    exact h₃
  · apply (guarded_of_gentle (mergeAll_gentle out fuel) h₂).bind
    intro _ w₃ h₃
    have rebuilt : Guarded env w₀ (rebuild out fuel) w₃ := by
      apply (guarded_of_gentle (restoreSymlinks_gentle out) h₃).bind
      intro _ w₄ h₄
      apply (installLinkers_guarded h₄ hroot out fuel).bind
      intro _ w₅ h₅
      apply guarded_of_gentle _ h₅
      apply (verifyLinker_gentle out).bind
      intro _
      exact finish_gentle out
    apply rebuilt.bind
    intro _ w₄ h₄
    exact h₄

end Phases

/-! ### The whole run -/

/-- In every state of every run, whatever the calls return, a file that was there when
`_start` was called has the bytes it had, and a link the target it had. -/
theorem start_never_overwrites (env : Env) (w : World) (fuel : Nat) (hmount : w.mount = none)
    (hroot : w.fs.isDir env.diskRoot = true)
    (hsure : ∀ t ∈ (start fuel).steps (kernel env) w, UnlinkSure env t.1 t.2) :
    ∀ w' ∈ (start fuel).states (kernel env) w, ∀ i x, x.Leaf → w.fs.node i = some x →
      w'.fs.node i = some x := by
  intro w' hw' i x hx hi
  have hnow : Untouched env w w :=
    ⟨fun i _ => .refl w.fs i, Nat.le_refl _, fun c t ht => by rw [hmount] at ht; cases ht⟩
  have hold : i.num < w.fs.next := w.fs.bounded i (by simp [hi])
  rcases Prog.mem_states_iff.mp hw' with rfl | ⟨t, ht, rfl⟩
  · exact hi
  · exact ((start_guarded hnow hroot fuel).steps hsure t ht).leaves i hold x hx |>.mpr hi

section Sample

/-- A disk on which the linker has a second name, in `/usr`. -/
private def linkedTwice : FS := .ofList
  [(⟨0, 0⟩, .dir ⟨0, 0⟩ [(nLdLinux, ⟨0, 1⟩)]), (⟨0, 1⟩, .file [1, 2]),
    (⟨1, 10⟩, .dir ⟨1, 10⟩ [(nUsr, ⟨1, 11⟩)]),
    (⟨1, 11⟩, .dir ⟨1, 10⟩ [(nLib, ⟨1, 12⟩), (nLdLinux, ⟨1, 13⟩)]),
    (⟨1, 12⟩, .dir ⟨1, 11⟩ [(nLdLinux, ⟨1, 13⟩)]), (⟨1, 13⟩, .file [9, 9])]

theorem start_never_overwrites_linked :
    (freshWorld linkedTwice).fs.node ⟨1, 13⟩ = some (.file [9, 9]) ∧
      ∀ w' ∈ (start 20).states (kernel patientEnv) (freshWorld linkedTwice),
        w'.fs.node ⟨1, 13⟩ = some (.file [9, 9]) := by
  refine ⟨rfl, fun w' hw' => ?_⟩
  refine start_never_overwrites patientEnv (freshWorld linkedTwice) 20 rfl rfl ?_ w' hw' _ _ ?_ rfl
  · intro t _
    unfold UnlinkSure
    split
    · rfl
    · trivial
  · intro p es h
    cases h

end Sample

end Hub11.Recovery
