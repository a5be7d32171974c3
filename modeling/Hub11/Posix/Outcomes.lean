import Hub11.Posix.Calls

/-!
Everything a system call can do, in one place.

`Outcome env w op w'` lists the ways a call can change the world, each with what must
have been the case for it; a failing call is `Outcome.same`, except that a failing
`close` may free its descriptor. Invariants of whole runs are proved by cases on it.
-/

namespace Hub11.Posix

open Hub11.Effect

theorem World.applyFS_ok {w w' : World} {r : Reply} {res : Except Errno FS}
    (h : w.applyFS res = .ok (w', r)) :
    ∃ fs, res = .ok fs ∧ w' = { w with fs := fs } ∧ r = { ret := 0 } := by
  cases res with
  | error e => cases h
  | ok fs =>
      cases h
      exact ⟨fs, rfl, rfl, rfl⟩

/-- A sequence that succeeds has a first part that succeeds. -/
private theorem bind_eq_ok {ε α β : Type} {x : Except ε α} {f : α → Except ε β} {b : β}
    (h : x >>= f = .ok b) : ∃ a, x = .ok a ∧ f a = .ok b := by
  cases x with
  | error e => cases h
  | ok a => exact ⟨a, rfl, h⟩

/-- What a call that goes through can change, whatever it is. There is one case for every kind of
change, with what must have been so before it; most invariants need only a few of them. -/
inductive Outcome (env : Env) (w : World) : Syscall → World → Prop where
  | same {op : Syscall} : Outcome env w op w
  | mkdir {fd : Int} {path : Path} {d : Ino} {n : Name} {fs : FS}
      (hres : w.resolveParent env fd path = .ok (d, n)) (hfs : w.fs.mkdir d n = .ok fs) :
      Outcome env w (.mkdirat fd path) { w with fs := fs }
  | symlink {fd : Int} {target path : Path} {d : Ino} {n : Name} {fs : FS}
      (hres : w.resolveParent env fd path = .ok (d, n)) (hfs : w.fs.symlink target d n = .ok fs) :
      Outcome env w (.symlinkat target fd path) { w with fs := fs }
  | unlink {fd : Int} {path : Path} {d : Ino} {n : Name} {fs : FS}
      (hres : w.resolveParent env fd path = .ok (d, n)) (hfs : w.fs.unlink d n = .ok fs) :
      Outcome env w (.unlinkat fd path false) { w with fs := fs }
  | rmdir {fd : Int} {path : Path} {d : Ino} {n : Name} {fs : FS}
      (hres : w.resolveParent env fd path = .ok (d, n))
      (hfs : w.fs.rmdir (w.space env).busy d n = .ok fs) :
      Outcome env w (.unlinkat fd path true) { w with fs := fs }
  | rename {fd fd' : Int} {path path' : Path} {d d' : Ino} {n n' : Name} {fs : FS}
      (hres : w.resolveParent env fd path = .ok (d, n))
      (hres' : w.resolveParent env fd' path' = .ok (d', n'))
      (hfs : w.fs.rename (w.space env).busy d n d' n' = .ok fs) :
      Outcome env w (.renameat fd path fd' path') { w with fs := fs }
  | console : Outcome env w .openConsole (w.openDesc .console).1
  | mount {target : Path} {i : Ino} (hres : w.resolve env AT_FDCWD target = .found i)
      (hdir : w.fs.isDir i = true) (hnone : w.mount = none) :
      Outcome env w (.mountDisk target) { w with mount := some (i, env.diskRoot) }
  | openDir {fd : Int} {path : Path} {flags : Nat} {i : Ino} {es : List (Name × Ino)}
      (hmode : env.abi.mode flags ≠ .direct) (hres : w.resolve env fd path = .found i)
      (hes : w.fs.entries i = some es) :
      Outcome env w (.openat fd path flags) (w.openDesc (.dir i (listing es) [])).1
  | openFile {fd : Int} {path : Path} {flags : Nat} {i : Ino} {data : Bytes}
      (hres : w.resolve env fd path = .found i) (hdata : w.fs.node i = some (.file data)) :
      Outcome env w (.openat fd path flags) (w.openDesc (.file i 0)).1
  | openTrunc {fd : Int} {path : Path} {flags : Nat} {i : Ino} {data : Bytes}
      (hmode : env.abi.mode flags = .creat) (hres : w.resolve env fd path = .found i)
      (hdata : w.fs.node i = some (.file data)) :
      Outcome env w (.openat fd path flags)
        ({ w with fs := w.fs.setData i [] }.openDesc (.file i 0)).1
  | openNew {fd : Int} {path : Path} {flags : Nat} {d : Ino} {n : Name} {fs : FS}
      (hmode : env.abi.mode flags = .creat) (hres : w.resolve env fd path = .missing d n)
      (hfs : w.fs.create d n (.file []) = .ok fs) :
      Outcome env w (.openat fd path flags)
        ({ w with fs := fs }.openDesc (.file (w.fs.fresh d.dev) 0)).1
  | listed {fd : Int} {size : Nat} {i : Ino} {born seen seen' : List Comp}
      (hfd : w.desc fd = some (.dir i born seen)) :
      Outcome env w (.getdents64 fd size) (w.setDesc fd (some (.dir i born seen')))
  | read {fd : Int} {count off : Nat} {i : Ino} {got : Bytes}
      (hfd : w.desc fd = some (.file i off)) :
      Outcome env w (.read fd count) (w.setDesc fd (some (.file i (off + got.length))))
  | write {fd : Int} {buf data part : Bytes} {i : Ino} {off : Nat}
      (hfd : w.desc fd = some (.file i off)) (hdata : w.fs.node i = some (.file data)) :
      Outcome env w (.write fd buf)
        ({ w with fs := w.fs.setData i (overwrite data off part) }.setDesc fd
          (some (.file i (off + part.length))))
  | close {fd : Int} : Outcome env w (.close fd) (w.setDesc fd none)
  | puts {fd : Int} {t : Text} : Outcome env w (.puts fd t) { w with log := w.log ++ [t] }
  | umount {target : Path} : Outcome env w (.umount2 target) { w with mount := none }

/-- A call that goes through has one of the outcomes. -/
theorem World.exec_outcome {env : Env} {w w' : World} {op : Syscall} {r : Reply}
    (h : w.exec env op = .ok (w', r)) : Outcome env w op w' := by
  cases op with
  | mkdirat fd path =>
      obtain ⟨⟨d, n⟩, hres, h⟩ := bind_eq_ok h
      obtain ⟨fs, hfs, rfl, _⟩ := World.applyFS_ok h
      exact .mkdir hres hfs
  | mountDevtmpfs =>
      cases h
      exact .same
  | openConsole =>
      simp only [World.exec] at h
      split at h <;> cases h
      exact .console
  | mountDisk target =>
      simp only [World.exec] at h
      split at h
      · rename_i hres
        split at h <;> cases h
        rename_i hc
        simp only [Bool.and_eq_true, Option.isNone_iff_eq_none] at hc
        exact .mount hres hc.1.1 hc.1.2
      · cases h
  | nanosleep s =>
      cases h
      exact .same
  | openat fd path flags =>
      simp only [World.exec, World.openPath] at h
      split at h
      · rename_i i hres
        unfold World.openNode at h
        split at h
        · rename_i hn
          split at h <;> cases h
          rename_i hdirect
          exact .openDir hdirect hres (by rw [FS.entries, hn])
        · rename_i hn
          split at h
          · cases h
          · split at h <;> cases h
            exact .openFile hres hn
          · cases h
            exact .openFile hres hn
          · rename_i hmode
            cases h
            exact .openTrunc hmode hres hn
        · cases h
        · cases h
      · rename_i d n hres
        split at h
        · rename_i hflags
          cases hfs : w.fs.create d n (.file []) with
          | error e =>
              rw [hfs] at h
              cases h
          | ok fs =>
              rw [hfs] at h
              cases h
              exact .openNew hflags hres hfs
        · cases h
      · cases h
  | getdents64 fd size =>
      simp only [World.exec, World.getdents] at h
      split at h
      · rename_i hfd
        split at h <;> cases h
        exact .listed hfd
      · cases h
      · cases h
  | renameat fd path fd' path' =>
      obtain ⟨⟨d, n⟩, hres, h⟩ := bind_eq_ok h
      obtain ⟨⟨d', n'⟩, hres', h⟩ := bind_eq_ok h
      obtain ⟨fs, hfs, rfl, _⟩ := World.applyFS_ok h
      exact .rename hres hres' hfs
  | unlinkat fd path removeDir =>
      obtain ⟨⟨d, n⟩, hres, h⟩ := bind_eq_ok h
      obtain ⟨fs, hfs, rfl, _⟩ := World.applyFS_ok h
      cases removeDir with
      | false => exact .unlink hres hfs
      | true => exact .rmdir hres hfs
  | symlinkat target fd path =>
      obtain ⟨⟨d, n⟩, hres, h⟩ := bind_eq_ok h
      obtain ⟨fs, hfs, rfl, _⟩ := World.applyFS_ok h
      exact .symlink hres hfs
  | newfstatat fd path =>
      obtain ⟨⟨d, n⟩, hres, h⟩ := bind_eq_ok h
      dsimp only at h
      split at h <;> cases h
      exact .same
  | read fd count =>
      simp only [World.exec, World.readFile] at h
      split at h
      · rename_i hfd
        split at h <;> cases h
        exact .read hfd
      · cases h
      · cases h
        exact .same
      · cases h
  | write fd buf =>
      simp only [World.exec, World.writeFile] at h
      split at h
      · rename_i hfd
        split at h <;> cases h
        rename_i hdata
        exact .write hfd hdata
      · cases h
  | puts fd t =>
      simp only [World.exec] at h
      split at h <;> cases h
      exact .puts
  | close fd =>
      simp only [World.exec] at h
      split at h <;> cases h
      exact .close
  | sync =>
      cases h
      exact .same
  | umount2 target =>
      simp only [World.exec] at h
      split at h
      · split at h
        · split at h <;> cases h
          exact .umount
        · cases h
      · cases h

/-- So has every call of the kernel, one that fails included. -/
theorem kernel_outcome (env : Env) (w : World) (op : Syscall) :
    ∃ w', Outcome env w op w' ∧ (kernel env w op).1 = { w' with tick := w.tick + 1 } := by
  unfold kernel
  cases h : w.attempt env op with
  | ok res =>
      obtain ⟨w', r⟩ := res
      refine ⟨w', ?_, rfl⟩
      unfold World.attempt at h
      split at h
      · cases h
      · exact World.exec_outcome h
  | error e =>
      refine ⟨w.refused env op, ?_, rfl⟩
      unfold World.refused
      split
      · split
        · exact .same
        · exact .close
      · exact .same

/-- Looking at a name changes nothing. -/
theorem kernel_newfstatat (env : Env) (w : World) (fd : Int) (path : Path) :
    Quiet w (kernel env w (.newfstatat fd path)).1 := by
  obtain ⟨w', h, heq⟩ := kernel_outcome env w (.newfstatat fd path)
  rw [heq]
  cases h with
  | same => exact ⟨rfl, rfl, rfl, rfl⟩

/-- Nothing that was written to the console disappears. -/
theorem kernel_log (env : Env) (w : World) (op : Syscall) :
    w.log <+: (kernel env w op).1.log := by
  obtain ⟨w', h, heq⟩ := kernel_outcome env w op
  rw [heq]
  cases h with
  | puts => exact List.prefix_append w.log _
  | _ => exact List.prefix_refl w.log

theorem run_log {α : Type} (env : Env) (p : Prog Syscall (fun _ => Reply) α) (w : World) :
    w.log <+: (p.run (kernel env) w).2.log :=
  Prog.run_rel (kernel env) (r := fun w w' => w.log <+: w'.log) (fun w => List.prefix_refl w.log)
    (fun h h' => h.trans h') (kernel_log env) p w

end Hub11.Posix
