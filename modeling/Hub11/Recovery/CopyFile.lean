import Hub11.Posix.Finite
import Hub11.Posix.Moves
import Hub11.Posix.Paths
import Hub11.Recovery.MergeStep

/-!
`copy_file` when calls fail and writes are short.

The old file is unlinked before the new one is there, the result of `write` is not
looked at, and a read error ends the loop like the end of the file. `Copyable` says
exactly when none of this does harm: it is a condition on the state before the call
and on the pattern of failures.
-/

namespace Hub11.Recovery

open Hub11.Effect Hub11.Posix

/-- The texts a run hands to `write` for the console, whether or not that succeeds. -/
def printed (events : List ((_ : Syscall) × Reply)) : List Text :=
  events.filterMap fun e =>
    match e.1 with
    | .puts _ t => some t
    | _ => none

/-! ### The copy loop -/

/-- How much the read at tick `t` returns when `left` bytes are left. -/
def readSize (c : Choices) (t left : Nat) : Nat := min left (min 4096 (max 1 (c.chunk t)))

/-- As long as bytes are left, no read and no write fails and no write is short. `t` is
the tick of the next read; reads and writes alternate. -/
inductive CleanCopy (c : Choices) : Nat → Nat → Prop where
  | done (t : Nat) : CleanCopy c t 0
  | portion {t left : Nat} (hread : c.fault t = none) (hwrite : c.fault (t + 1) = none)
      (hwhole : ∀ k, c.short (t + 1) = some k → readSize c t left ≤ k)
      (rest : CleanCopy c (t + 2) (left - readSize c t left)) : CleanCopy c t left

/-- One portion of a clean copy: its read and its write go through, the write is not short, and the
rest of the copy is clean. -/
theorem cleanCopy_iff {c : Choices} {t left : Nat} (hleft : left ≠ 0) :
    CleanCopy c t left ↔ c.fault t = none ∧ c.fault (t + 1) = none ∧
      (∀ k, c.short (t + 1) = some k → readSize c t left ≤ k) ∧
      CleanCopy c (t + 2) (left - readSize c t left) := by
  constructor
  · intro h
    cases h with
    | done => exact absurd rfl hleft
    | portion hread hwrite hwhole rest => exact ⟨hread, hwrite, hwhole, rest⟩
  · rintro ⟨hread, hwrite, hwhole, rest⟩
    exact .portion hread hwrite hwhole rest

theorem overwrite_end (data buf : Bytes) : overwrite data data.length buf = data ++ buf := by
  simp [overwrite]

section Loop

variable {env : Env} {w : World} {ki ko : Nat} {si di : Ino} {data written : Bytes} {off : Nat}

/-- A copy in progress: `off` bytes were read, and the target holds `written`. After a short write
the two differ for good. -/
structure InCopy (w : World) (ki ko : Nat) (si di : Ino) (data written : Bytes) (off : Nat) :
    Prop where
  distinct : si ≠ di
  fds : ki ≠ ko
  source : w.fs.node si = some (.file data)
  target : w.fs.node di = some (.file written)
  input : w.fds ki = some (.file si off)
  output : w.fds ko = some (.file di written.length)
  le : off ≤ data.length

/-- One write: some part of the buffer is appended to the target, all of it exactly if the
call does not fail and is not short. -/
theorem InCopy.write (env : Env) (h : InCopy w ki ko si di data written off) {buf : Bytes}
    (hbuf : buf ≠ []) :
    ∃ part, (kernel env w (.write ko buf)).1.fs = w.fs.setData di (written ++ part) ∧
      (kernel env w (.write ko buf)).1.mount = w.mount ∧
      InCopy (kernel env w (.write ko buf)).1 ki ko si di data (written ++ part) off ∧
      part.length ≤ buf.length ∧
      (part = buf ↔ env.choices.fault w.tick = none ∧
        ∀ k, env.choices.short w.tick = some k → buf.length ≤ k) := by
  cases hf : env.choices.fault w.tick with
  | some e =>
      obtain ⟨_, quiet⟩ := kernel_fault env hf (.write ko buf) rfl
      have hsame : written ++ [] = written := List.append_nil written
      refine ⟨[], ?_, quiet.mount, ?_, Nat.zero_le _, ?_⟩
      · rw [hsame, FS.setData_self _ _ _ h.target]
        exact quiet.fs
      · rw [hsame]
        exact ⟨h.distinct, h.fds, quiet.fs ▸ h.source, quiet.fs ▸ h.target, quiet.fds ▸ h.input,
          quiet.fds ▸ h.output, h.le⟩
      · constructor
        · intro hnil
          exact absurd hnil.symm hbuf
        · rintro ⟨hnone, _⟩
          cases hnone
  | none =>
      obtain ⟨part, hpart, moved⟩ := kernel_write_part hf h.output h.target buf
      rw [overwrite_end] at moved
      have hlen : part.length ≤ buf.length := by
        rw [hpart]
        exact List.length_take_le' _ _
      refine ⟨part, moved.fs, moved.mount, ?_, hlen, ?_⟩
      · refine ⟨h.distinct, h.fds, ?_, ?_, ?_, ?_, h.le⟩
        · rw [moved.fs, FS.node_setData_of_ne _ _ _ _ h.distinct]
          exact h.source
        · rw [moved.fs]
          exact FS.node_setData_self _ _ _ h.target
        · rw [moved.fds, World.setDesc_fds_of_ne _ h.fds]
          exact h.input
        · rw [moved.fds, World.setDesc_fds_self, List.length_append]
      · constructor
        · intro hwhole
          refine ⟨rfl, fun k hk => ?_⟩
          rw [hk, Option.getD_some] at hpart
          have := congrArg List.length (hpart.symm.trans hwhole)
          rw [List.length_take] at this
          omega
        · rintro ⟨_, hwhole⟩
          rw [hpart]
          cases hs : env.choices.short w.tick with
          | none => simp
          | some k => exact List.take_of_length_le (hwhole k hs)

/-- Whatever the read behind the last byte does, it returns nothing and changes nothing. -/
theorem read_at_end (env : Env) (hin : w.fds ki = some (.file si off))
    (hsrc : w.fs.node si = some (.file data)) (hend : data.length ≤ off) :
    ¬ (kernel env w (.read ki 4096)).2.ret > 0 ∧
      (kernel env w (.read ki 4096)).1.fs = w.fs ∧
      (kernel env w (.read ki 4096)).1.mount = w.mount := by
  cases hf : env.choices.fault w.tick with
  | some e =>
      obtain ⟨hret, quiet⟩ := kernel_fault env hf (.read ki 4096) rfl
      exact ⟨by omega, quiet.fs, quiet.mount⟩
  | none =>
      obtain ⟨got, hgot, hret, _, moved⟩ := kernel_read hf hin hsrc 4096
      rw [List.drop_eq_nil_iff.mpr hend, List.take_nil] at hgot
      rw [hret, hgot]
      exact ⟨by simp, moved.fs, moved.mount⟩

/-- The loop returns with something appended to the target, which is the rest of the
source exactly if the copy was clean. -/
theorem copyLoop_run (env : Env) (h : InCopy w ki ko si di data written off) {fuel : Nat}
    (hfuel : data.length - off < fuel) :
    ∃ w' extra, (copyLoop fuel ki ko).run (kernel env) w = (some (), w') ∧
      w'.fs = w.fs.setData di (written ++ extra) ∧ w'.mount = w.mount ∧
      extra.length ≤ data.length - off ∧
      (extra = data.drop off ↔ CleanCopy env.choices w.tick (data.length - off)) := by
  induction fuel generalizing w written off with
  | zero => omega
  | succ fuel ih =>
      change ∃ w' extra, ((if (kernel env w (.read ki 4096)).2.ret > 0 then
        call (.write ko (kernel env w (.read ki 4096)).2.data) >>= fun _ => copyLoop fuel ki ko
        else pure ()) : Sys Unit).run (kernel env) (kernel env w (.read ki 4096)).1 = _ ∧ _
      by_cases hend : off = data.length
      · -- nothing is left: whatever the last read does, the loop stops
        have hleft : data.length - off = 0 := by omega
        have hdrop : data.drop off = [] := by rw [List.drop_eq_nil_iff]; omega
        have hstop := read_at_end env h.input h.source (Nat.le_of_eq hend.symm)
        rw [if_neg hstop.1, hleft, hdrop]
        refine ⟨_, [], rfl, ?_, hstop.2.2, Nat.le_refl 0, fun _ => .done _, fun _ => rfl⟩
        rw [List.append_nil, FS.setData_self _ _ _ h.target]
        exact hstop.2.1
      · have hleft : data.length - off ≠ 0 := by
          have := h.le
          omega
        rw [cleanCopy_iff hleft]
        cases hf : env.choices.fault w.tick with
        | some e =>
            obtain ⟨hret, quiet⟩ := kernel_fault env hf (.read ki 4096) rfl
            rw [if_neg (by omega)]
            refine ⟨_, [], rfl, ?_, quiet.mount, Nat.zero_le _, fun hnil => ?_, fun hno => ?_⟩
            · rw [List.append_nil, FS.setData_self _ _ _ h.target]
              exact quiet.fs
            · have := congrArg List.length hnil
              rw [List.length_nil, List.length_drop] at this
              omega
            · cases hno.1
        | none =>
            obtain ⟨got, hgot, hret, hbuf, moved⟩ := kernel_read hf h.input h.source 4096
            have hlen : got.length = readSize env.choices w.tick (data.length - off) := by
              rw [hgot, List.length_take, List.length_drop, readSize]
              omega
            have hsize : 0 < got.length ∧ got.length ≤ data.length - off := by
              rw [hlen, readSize]
              omega
            have hdrop : data.drop off = got ++ data.drop (off + got.length) := by
              have hsplit := List.take_append_drop got.length (data.drop off)
              rw [List.drop_drop] at hsplit
              rw [← hsplit]
              congr 1
              rw [hgot, List.length_take, ← List.take_take, List.take_length]
            have h₁ : InCopy (kernel env w (.read ki 4096)).1 ki ko si di data written
                (off + got.length) := by
              refine ⟨h.distinct, h.fds, moved.fs ▸ h.source, moved.fs ▸ h.target, ?_, ?_, by omega⟩
              · rw [moved.fds, World.setDesc_fds_self]
              · rw [moved.fds, World.setDesc_fds_of_ne _ h.fds.symm]
                exact h.output
            obtain ⟨part, hfs, hmount, h₂, hpart, hwhole⟩ :=
              h₁.write env (List.length_pos_iff.mp hsize.1)
            obtain ⟨w', extra, hrun, hfs', hmount', hextra, hclean⟩ := ih h₂ (by omega)
            rw [if_pos (by rw [hret]; omega), hbuf, ← hlen]
            refine ⟨w', part ++ extra, hrun, ?_, hmount'.trans (hmount.trans moved.mount), ?_, ?_⟩
            · rw [hfs', hfs, moved.fs, FS.setData_setData, List.append_assoc]
            · rw [List.length_append]
              omega
            · have htick : (kernel env w (.read ki 4096)).1.tick = w.tick + 1 := kernel_tick env w _
              rw [kernel_tick, htick, Nat.sub_add_eq] at hclean
              rw [htick] at hwhole
              constructor
              · intro heq
                have hboth : part = got ∧ extra = data.drop (off + got.length) := by
                  rw [hdrop] at heq
                  apply List.append_inj heq
                  have := congrArg List.length heq
                  rw [List.length_append, List.length_append, List.length_drop] at this
                  omega
                obtain ⟨hwrite, hshort⟩ := hwhole.mp hboth.1
                exact ⟨rfl, hwrite, hshort, hclean.mp hboth.2⟩
              · rintro ⟨_, hwrite, hshort, hrest⟩
                rw [hdrop, hwhole.mpr ⟨hwrite, hshort⟩, hclean.mpr hrest]

/-- The loop prints nothing. -/
theorem copyLoop_silent (fuel : Nat) (inFd outFd : Int) (w : World) :
    printed ((copyLoop fuel inFd outFd).events (kernel env) w) = [] := by
  induction fuel generalizing w with
  | zero => rfl
  | succ fuel ih =>
      change printed (⟨.read inFd 4096, _⟩ :: ((if (kernel env w (.read inFd 4096)).2.ret > 0 then
        call (.write outFd (kernel env w (.read inFd 4096)).2.data) >>= fun _ =>
          copyLoop fuel inFd outFd
        else pure ()) : Sys Unit).events (kernel env) (kernel env w (.read inFd 4096)).1) = []
      split
      · exact ih _
      · rfl

end Loop

/-! ### The whole function -/

section Whole

variable (env : Env) (w : World) (dst : Path)

/-- What is at a path, a link in the last place not followed: the inode and its node. -/
def entryAt : Option (Ino × Option Node) :=
  match w.resolveParent env AT_FDCWD dst with
  | .ok (d, n) => (w.fs.child d n).map fun i => (i, w.fs.node i)
  | .error _ => none

/-- The table after the second call, if that call unlinks something. It looks only at the state
before and at whether the call is made to fail. -/
def unlinks : Option FS :=
  match env.choices.fault (w.tick + 1), w.resolveParent env AT_FDCWD dst with
  | none, .ok (d, n) => (w.fs.unlink d n).toOption
  | _, _ => none

/-- The file the third call opens for writing: one it finds, through a link or because the unlink
failed, or a new one. -/
def destination : Option Ino :=
  let fs := (unlinks env w dst).getD w.fs
  if env.choices.fault (w.tick + 2) = none then
    match fs.lookup (w.space env) env.ramRoot dst.comps with
    | .found i =>
        match fs.node i with
        | some (.file _) => some i
        | _ => none
    | .missing d _ => some (fs.fresh d.dev)
    | .fail _ => none
  else none

/-- The third call finds or makes its file at `dst` itself. This fails only if `dst` is a
symbolic link that the second call has left there: then the file is where the link leads. -/
def Direct : Prop :=
  let fs := (unlinks env w dst).getD w.fs
  match fs.lookup (w.space env) env.ramRoot dst.comps with
  | .found i => fs.At (w.space env) env.ramRoot dst.comps i
  | .missing d n => fs.lookupParent (w.space env) env.ramRoot dst.comps = .ok (d, n)
  | .fail _ => False

/-- When `copy_file` from the file `si` with contents `data` is all-or-nothing: the source
cannot be opened; or nothing was unlinked and the destination cannot be created; or it
can, is neither reached through a link nor the source itself, and the copy is clean. -/
def Copyable (si : Ino) (data : Bytes) : Prop :=
  env.choices.fault w.tick ≠ none ∨
    match destination env w dst with
    | none => unlinks env w dst = none
    | some i => Direct env w dst ∧ (i ≠ si ∨ data = []) ∧
        CleanCopy env.choices (w.tick + 3) data.length

/-- `copy_file` has ended in `w'` and printed `texts`: either the success message, and the
destination itself is a regular file with the bytes of the source, or an error, and the
destination is as before. A link at `dst` is not followed in either case. -/
def AllOrNothing (data : Bytes) (srcText dstText : String) (w' : World) (texts : List Text) : Prop :=
  (texts = [.lit "  Installed: ", .lit dstText, .lit "\n"] ∧
    ∃ i, entryAt env w' dst = some (i, some (.file data))) ∨
  ((texts = [.lit "  [ERROR] Cannot open source: ", .lit srcText, .lit "\n"] ∨
      texts = [.lit "  [ERROR] Cannot create dest: ", .lit dstText, .lit "\n"]) ∧
    entryAt env w' dst = entryAt env w dst)

end Whole

section Steps

variable {env : Env} {w w₁ : World} {dst : Path}

theorem resolve_cwd (env : Env) (w : World) (path : Path) :
    w.resolve env AT_FDCWD path = w.fs.lookup (w.space env) env.ramRoot path.comps := by
  have hbase : w.base env AT_FDCWD path = .ok env.ramRoot := by
    unfold World.base
    split
    · rfl
    · rw [if_pos rfl]
  rw [World.resolve, hbase]

theorem resolveParent_cwd (env : Env) (w : World) (path : Path) :
    w.resolveParent env AT_FDCWD path =
      w.fs.lookupParent (w.space env) env.ramRoot path.comps := by
  have hbase : w.base env AT_FDCWD path = .ok env.ramRoot := by
    unfold World.base
    split
    · rfl
    · rw [if_pos rfl]
  rw [World.resolveParent, hbase]
  rfl

theorem space_eq (env : Env) (h : w₁.mount = w.mount) : w₁.space env = w.space env := by
  rw [World.space, World.space, h]

theorem entryAt_eq (env : Env) (dst : Path) (hfs : w₁.fs = w.fs) (hmount : w₁.mount = w.mount) :
    entryAt env w₁ dst = entryAt env w dst := by
  rw [entryAt, entryAt, resolveParent_cwd, resolveParent_cwd, space_eq env hmount, hfs]

theorem entryAt_eq_some {i : Ino} {x : Option Node} :
    entryAt env w dst = some (i, x) ↔
      w.fs.At (w.space env) env.ramRoot dst.comps i ∧ w.fs.node i = x := by
  unfold entryAt FS.At
  rw [resolveParent_cwd]
  constructor
  · intro h
    split at h
    · rename_i d n hp
      obtain ⟨j, hj, hx⟩ := Option.map_eq_some_iff.mp h
      cases hx
      exact ⟨⟨d, n, hp, hj⟩, rfl⟩
    · cases h
  · rintro ⟨⟨d, n, hp, hi⟩, rfl⟩
    rw [hp]
    exact congrArg (Option.map _) hi

/-- Nothing is mounted on a file. -/
theorem cross_file {fs : FS} {sp : Space} {i : Ino} {data : Bytes}
    (hmount : ∀ c t, sp.mount = some (c, t) → fs.isDir c = true)
    (hi : fs.node i = some (.file data)) : sp.cross i = i := by
  unfold Space.cross
  split
  · rename_i c t hm
    rw [if_neg]
    rintro rfl
    have hdir := hmount _ _ hm
    simp [FS.isDir, FS.entries, hi] at hdir
  · rfl

/-- The second call does what `unlinks` says. -/
theorem kernel_unlinks (env : Env) (dst : Path) (hfs : w₁.fs = w.fs) (hmount : w₁.mount = w.mount)
    (htick : w₁.tick = w.tick + 1) :
    (kernel env w₁ (.unlinkat AT_FDCWD dst false)).1.fs = (unlinks env w dst).getD w.fs ∧
      (kernel env w₁ (.unlinkat AT_FDCWD dst false)).1.mount = w.mount ∧
      (kernel env w₁ (.unlinkat AT_FDCWD dst false)).1.fds = w₁.fds ∧
      (kernel env w₁ (.unlinkat AT_FDCWD dst false)).1.nextFd = w₁.nextFd := by
  have hres : w₁.resolveParent env AT_FDCWD dst = w.resolveParent env AT_FDCWD dst := by
    rw [resolveParent_cwd, resolveParent_cwd, hfs, space_eq env hmount]
  have hfail : (∃ e, env.choices.fault w₁.tick = some e) ∨
      (∃ e, w₁.exec env (.unlinkat AT_FDCWD dst false) = .error e) →
      (kernel env w₁ (.unlinkat AT_FDCWD dst false)).1.fs = w₁.fs ∧
      (kernel env w₁ (.unlinkat AT_FDCWD dst false)).1.mount = w.mount ∧
      (kernel env w₁ (.unlinkat AT_FDCWD dst false)).1.fds = w₁.fds ∧
      (kernel env w₁ (.unlinkat AT_FDCWD dst false)).1.nextFd = w₁.nextFd := by
    rintro (⟨e, hf⟩ | ⟨e, he⟩)
    · obtain ⟨_, quiet⟩ := kernel_fault env hf (.unlinkat AT_FDCWD dst false) rfl
      exact ⟨quiet.fs, quiet.mount.trans hmount, quiet.fds, quiet.nextFd⟩
    · obtain ⟨_, quiet⟩ := kernel_error env e rfl he
      exact ⟨quiet.fs, quiet.mount.trans hmount, quiet.fds, quiet.nextFd⟩
  unfold unlinks
  rw [← htick, ← hres, ← hfs]
  cases hf : env.choices.fault w₁.tick with
  | some e =>
      exact hfail (.inl ⟨e, hf⟩)
  | none =>
      have hexec : ∀ d n, w₁.resolveParent env AT_FDCWD dst = .ok (d, n) →
          w₁.exec env (.unlinkat AT_FDCWD dst false) = w₁.applyFS (w₁.fs.unlink d n) := by
        intro d n hp
        simp only [World.exec, hp]
        rfl
      cases hp : w₁.resolveParent env AT_FDCWD dst with
      | error e =>
          have hexec : w₁.exec env (.unlinkat AT_FDCWD dst false) = .error e := by
            simp only [World.exec, hp]
            rfl
          exact hfail (.inr ⟨e, hexec⟩)
      | ok dn =>
          obtain ⟨d, n⟩ := dn
          dsimp only
          cases hu : w₁.fs.unlink d n with
          | error e => exact hfail (.inr ⟨e, by rw [hexec d n hp, hu]; rfl⟩)
          | ok fs =>
              obtain ⟨_, changed⟩ := kernel_applied env hf (by rw [hexec d n hp, hu])
              exact ⟨changed.fs, changed.mount.trans hmount, changed.fds, changed.nextFd⟩

theorem unlinks_eq_some {fs : FS} (h : unlinks env w dst = some fs) :
    ∃ d n i, w.resolveParent env AT_FDCWD dst = .ok (d, n) ∧ w.fs.child d n = some i ∧
      fs = w.fs.delEntry d n := by
  unfold unlinks at h
  split at h
  · rename_i d n _ hp
    cases hu : w.fs.unlink d n with
    | error e => simp [hu, Except.toOption] at h
    | ok fs' =>
        obtain rfl : fs' = fs := by simpa [hu, Except.toOption] using h
        obtain ⟨i, hi, _, hfs⟩ := FS.unlink_ok hu
        exact ⟨d, n, i, hp, hi, hfs⟩
  · cases h

/-- What is unlinked is not at its path any more. -/
theorem entryAt_of_unlinks {fs : FS} (h : unlinks env w dst = some fs) (hfs : w₁.fs = fs)
    (hmount : w₁.mount = w.mount) : entryAt env w₁ dst ≠ entryAt env w dst := by
  obtain ⟨d, n, i, hp, hi, rfl⟩ := unlinks_eq_some h
  have hbefore : entryAt env w dst = some (i, w.fs.node i) := by
    simp [entryAt, hp, hi]
  have hafter : entryAt env w₁ dst = none := by
    unfold entryAt
    cases hp₁ : w₁.resolveParent env AT_FDCWD dst with
    | error e => rfl
    | ok dn =>
        obtain ⟨d₁, n₁⟩ := dn
        -- what is found after the removal was found before
        obtain ⟨rfl, rfl⟩ : d₁ = d ∧ n₁ = n := by
          rw [resolveParent_cwd, FS.lookupParent] at hp hp₁
          rw [space_eq env hmount, hfs] at hp₁
          split at hp
          · rename_i n' rest hrev
            rw [hrev] at hp₁
            dsimp only at hp₁
            split at hp₁
            · rename_i hfound
              rw [(FS.extends_delEntry d n).lookup hfound] at hp
              cases hp₁
              cases hp
              exact ⟨rfl, rfl⟩
            · cases hp₁
            · cases hp₁
          · cases hp
        have hgone : w₁.fs.child d₁ n₁ = none := by
          obtain ⟨es, he⟩ := w.fs.isDir_iff.mp (w.fs.isDir_of_child hi)
          rw [hfs, FS.child, FS.entries_delEntry, if_pos rfl, he]
          simp [dirGet_del]
        simp [hgone]
  rw [hbefore, hafter]
  simp

/-- Unlinking something leaves files and directories in place. -/
theorem unlinks_keeps (env : Env) (w : World) (dst : Path) :
    (∀ i data, w.fs.node i = some (.file data) →
      ((unlinks env w dst).getD w.fs).node i = some (.file data)) ∧
    ∀ i, w.fs.isDir i = true → ((unlinks env w dst).getD w.fs).isDir i = true := by
  cases hu : unlinks env w dst with
  | none => exact ⟨fun i data h => h, fun i h => h⟩
  | some fs =>
      obtain ⟨d, n, j, _, hj, rfl⟩ := unlinks_eq_some hu
      refine ⟨fun i data h => ?_, fun i h => ?_⟩
      · have hne : i ≠ d := by
          rintro rfl
          have hdir := w.fs.isDir_of_child hj
          simp [FS.isDir, FS.entries, h] at hdir
        exact (FS.node_delEntry_of_ne _ _ _ _ hne).trans h
      · rw [Option.getD_some, ← FS.obj_eq_dir_iff, FS.obj_delEntry, w.fs.obj_eq_dir_iff.mpr h]

/-- The third call fails if there is no destination for it. -/
theorem kernel_creat_none {w₂ : World} (hfs : w₂.fs = (unlinks env w dst).getD w.fs)
    (hmount : w₂.mount = w.mount) (htick : w₂.tick = w.tick + 2)
    (h : destination env w dst = none) :
    (kernel env w₂ (.openat AT_FDCWD dst creatFlags)).2.ret < 0 ∧
      Quiet w₂ (kernel env w₂ (.openat AT_FDCWD dst creatFlags)).1 := by
  unfold destination at h
  rw [← hfs, ← htick, ← space_eq env hmount] at h
  cases hf : env.choices.fault w₂.tick with
  | some e => exact kernel_fault env hf _ rfl
  | none =>
      rw [if_pos hf, ← resolve_cwd] at h
      have hopen : ∃ e, w₂.exec env (.openat AT_FDCWD dst creatFlags) = .error e := by
        change ∃ e, w₂.openPath env AT_FDCWD dst creatFlags = .error e
        unfold World.openPath
        split
        · rename_i i hres
          rw [hres] at h
          unfold World.openNode
          cases hn : w₂.fs.node i with
          | none => exact ⟨_, rfl⟩
          | some x =>
              cases x with
              | dir p es => exact ⟨_, rfl⟩
              | file data => simp [hn] at h
              | symlink t => exact ⟨_, rfl⟩
        · rename_i hres
          rw [hres] at h
          cases h
        · exact ⟨_, rfl⟩
      obtain ⟨e, he⟩ := hopen
      exact kernel_error env e rfl he

/-- What is at `dst` when `extra` has been written to a file that was found there. -/
theorem entryAt_of_found {fs : FS} {w' : World} {i : Ino} {old extra : Bytes}
    (hmount : w'.mount = w.mount) (hfs : w'.fs = fs.setData i extra)
    (hlive : ∀ c t, w.mount = some (c, t) → fs.isDir c = true)
    (hres : fs.lookup (w.space env) env.ramRoot dst.comps = .found i)
    (hi : fs.node i = some (.file old)) (data : Bytes) :
    (∃ j, entryAt env w' dst = some (j, some (.file data))) ↔
      fs.At (w.space env) env.ramRoot dst.comps i ∧ extra = data := by
  simp only [entryAt_eq_some, space_eq env hmount, hfs, FS.at_setData hi]
  have hnew : (fs.setData i extra).node i = some (.file extra) := FS.node_setData_self _ _ _ hi
  constructor
  · rintro ⟨j, hat, hj⟩
    obtain rfl : j = i := by
      by_contra hne
      rw [FS.node_setData_of_ne _ _ _ _ hne] at hj
      exact hne (Walk.found.inj ((hat.lookup hj (cross_file hlive hj)).symm.trans hres))
    rw [hnew] at hj
    cases hj
    exact ⟨hat, rfl⟩
  · rintro ⟨hat, rfl⟩
    exact ⟨i, hat, hnew⟩

/-- What is at `dst` when `extra` has been written to a new file. -/
theorem entryAt_of_missing {fs : FS} {w' : World} {d : Ino} {m : Name} {extra : Bytes}
    (hmount : w'.mount = w.mount)
    (hfs : w'.fs = (fs.link d m (.file [])).setData (fs.fresh d.dev) extra)
    (hlive : ∀ c t, w.mount = some (c, t) → fs.isDir c = true)
    (hres : fs.lookup (w.space env) env.ramRoot dst.comps = .missing d m) (data : Bytes) :
    (∃ j, entryAt env w' dst = some (j, some (.file data))) ↔
      fs.lookupParent (w.space env) env.ramRoot dst.comps = .ok (d, m) ∧ extra = data := by
  obtain ⟨hdir, hnone⟩ := FS.walk_missing_spec hres
  have hfresh : (fs.link d m (.file [])).node (fs.fresh d.dev) = some (.file []) := by
    apply FS.node_link_fresh
    rw [Ne, ← FS.obj_eq_none_iff, fs.obj_eq_dir_iff.mpr hdir]
    simp
  have hlive' : ∀ c t, w.mount = some (c, t) → (fs.link d m (.file [])).isDir c = true := by
    intro c t hm
    have hext : FS.Extends (w.space env) fs (fs.link d m (.file [])) := FS.extends_link hnone
    exact hext.isDir (hlive c t hm)
  simp only [entryAt_eq_some, space_eq env hmount, hfs, FS.at_setData hfresh]
  have hnew : ((fs.link d m (.file [])).setData (fs.fresh d.dev) extra).node (fs.fresh d.dev) =
      some (.file extra) := FS.node_setData_self _ _ _ hfresh
  constructor
  · rintro ⟨j, hat, hj⟩
    have hfile : ∃ x, (fs.link d m (.file [])).node j = some (.file x) := by
      by_cases hjf : j = fs.fresh d.dev
      · exact ⟨[], hjf ▸ hfresh⟩
      · exact ⟨data, by rw [← hj, FS.node_setData_of_ne _ _ _ _ hjf]⟩
    obtain ⟨x, hx⟩ := hfile
    obtain ⟨hp, rfl⟩ := (FS.at_link_iff hres hx (cross_file hlive' hx)).mp hat
    rw [hnew] at hj
    cases hj
    exact ⟨hp, rfl⟩
  · rintro ⟨hp, rfl⟩
    exact ⟨_, (FS.at_link_iff hres hfresh (cross_file hlive' hfresh)).mpr ⟨hp, rfl⟩, hnew⟩

/-- The third call opens its destination, which is empty then. Whatever is written to it is
what is at `dst` afterwards, unless a link was followed. -/
theorem kernel_creat_some {w₂ : World} {di : Ino} (hfs : w₂.fs = (unlinks env w dst).getD w.fs)
    (hmount : w₂.mount = w.mount) (htick : w₂.tick = w.tick + 2)
    (hlive : ∀ c t, w.mount = some (c, t) → w₂.fs.isDir c = true)
    (h : destination env w dst = some di) :
    ∃ w₃, kernel env w₂ (.openat AT_FDCWD dst creatFlags) = (w₃, { ret := w₂.nextFd }) ∧
      (w₃.fds = fun k => if k = w₂.nextFd then some (.file di 0) else w₂.fds k) ∧
      w₃.mount = w.mount ∧ w₃.fs.node di = some (.file []) ∧
      (∀ i data, i ≠ di → w₂.fs.node i = some (.file data) → w₃.fs.node i = some (.file data)) ∧
      ∀ w' extra data, w'.fs = w₃.fs.setData di extra → w'.mount = w.mount →
        ((∃ j, entryAt env w' dst = some (j, some (.file data))) ↔
          Direct env w dst ∧ extra = data) := by
  unfold Direct
  unfold destination at h
  rw [← hfs, ← htick] at h
  rw [← hfs]
  have hspace := space_eq env hmount
  dsimp only at h ⊢
  split at h
  · rename_i hf
    split at h
    · rename_i i hres
      split at h
      · rename_i data hn
        obtain rfl : i = di := Option.some.inj h
        have hatt : w₂.attempt env (.openat AT_FDCWD dst creatFlags) =
            .ok ({ w₂ with fs := w₂.fs.setData i [] }.openDesc (.file i 0)) := by
          simp only [World.attempt, hf, World.exec, World.openPath, resolve_cwd, hspace, hres,
            World.openNode, hn, Abi.mode_creat]
        refine ⟨_, kernel_ok env hatt, rfl, hmount, ?_, ?_, fun w' extra data' hw' hm' => ?_⟩
        · exact FS.node_setData_self _ _ _ hn
        · intro j data' hj hj'
          exact (FS.node_setData_of_ne _ _ _ _ hj).trans hj'
        · have hw' : w'.fs = (w₂.fs.setData i []).setData i extra := hw'
          rw [FS.setData_setData] at hw'
          exact entryAt_of_found hm' hw' hlive hres hn data'
      · cases h
    · rename_i d m hres
      obtain rfl : w₂.fs.fresh d.dev = di := Option.some.inj h
      obtain ⟨hdir, hnone⟩ := FS.walk_missing_spec hres
      have hnode : w₂.fs.node d ≠ none := by
        rw [Ne, ← FS.obj_eq_none_iff, w₂.fs.obj_eq_dir_iff.mpr hdir]
        simp
      have hatt : w₂.attempt env (.openat AT_FDCWD dst creatFlags) =
          .ok ({ w₂ with fs := w₂.fs.link d m (.file []) }.openDesc
            (.file (w₂.fs.fresh d.dev) 0)) := by
        simp only [World.attempt, hf, World.exec, World.openPath, resolve_cwd, hspace, hres, if_true,
          FS.create, hdir, hnone]
        rfl
      refine ⟨_, kernel_ok env hatt, rfl, hmount, FS.node_link_fresh hnode, ?_,
        fun w' extra data' hw' hm' => ?_⟩
      · intro i data hi hdata
        rw [← hdata]
        apply FS.node_link
        · rintro rfl
          simp [FS.isDir, FS.entries, hdata] at hdir
        · simp [hdata]
      · exact entryAt_of_missing hm' hw' hlive hres data'
    · cases h
  · cases h

end Steps

/-- A program that leaves the file system alone and prints `texts`. -/
def Says (env : Env) (p : Sys Unit) (texts : List Text) : Prop :=
  ∀ w, ∃ w', p.run (kernel env) w = (some (), w') ∧ w'.fs = w.fs ∧ w'.mount = w.mount ∧
    printed (p.events (kernel env) w) = texts

theorem Says.bind {env : Env} {p q : Sys Unit} {a b : List Text} (hp : Says env p a)
    (hq : Says env q b) : Says env (p >>= fun _ => q) (a ++ b) := by
  intro w
  obtain ⟨w₁, hrun, hfs, hmount, htexts⟩ := hp w
  obtain ⟨w₂, hrun', hfs', hmount', htexts'⟩ := hq w₁
  refine ⟨w₂, ?_, hfs'.trans hfs, hmount'.trans hmount, ?_⟩
  · rw [Prog.run_bind, hrun]
    exact hrun'
  · rw [Prog.events_bind, hrun, printed, List.filterMap_append]
    exact congrArg₂ _ htexts htexts'

theorem says_close (env : Env) (k : Nat) : Says env (call (.close k) >>= fun _ => pure ()) [] := by
  intro w
  obtain ⟨hfs, _, hmount, _⟩ := kernel_close env w k
  exact ⟨_, rfl, hfs, hmount, rfl⟩

theorem says_printAll (env : Env) (out : Int) (texts : List String) :
    Says env (printAll out texts) (texts.map .lit) := by
  induction texts with
  | nil => exact fun w => ⟨w, rfl, rfl, rfl, rfl⟩
  | cons s texts ih =>
      apply Says.bind (a := [.lit s])
      · intro w
        have quiet := kernel_puts env w out (.lit s)
        exact ⟨_, rfl, quiet.fs, quiet.mount, rfl⟩
      · exact ih

/-! ### The parts of `copy_file` -/

/-- The rest of `copy_file` once both files are open. -/
def copyBetween (out : Int) (fuel : Nat) (inFd outFd : Int) (dstText : String) : Sys Unit := do
  copyLoop fuel inFd outFd
  let _ ← call (.close inFd)
  let _ ← call (.close outFd)
  printAll out ["  Installed: ", dstText, "\n"]

/-- The rest of `copy_file` after the `unlinkat`. -/
def copyInto (out : Int) (fuel : Nat) (inFd : Int) (dst : Path) (dstText : String) : Sys Unit := do
  let outFd ← call (.openat AT_FDCWD dst creatFlags)
  if outFd < 0 then
    printAll out ["  [ERROR] Cannot create dest: ", dstText, "\n"]
    let _ ← call (.close inFd)
  else
    copyBetween out fuel inFd outFd dstText

/-- `copy_file` with the part after the `unlinkat` under a name of its own. -/
theorem copyFile_eq (out : Int) (fuel : Nat) (src dst : Path) (srcText dstText : String) :
    copyFile out fuel src dst srcText dstText = (do
      let inFd ← call (.openat AT_FDCWD src O_RDONLY)
      if inFd < 0 then
        printAll out ["  [ERROR] Cannot open source: ", srcText, "\n"]
      else
        let _ ← call (.unlinkat AT_FDCWD dst false)
        copyInto out fuel inFd dst dstText) := rfl

section Theorem

variable {env : Env} {w : World} {dst : Path} {si : Ino} {data : Bytes} {srcText dstText : String}

/-- With both files open: something is copied, and the success message is printed. -/
theorem copyBetween_run (env : Env) (dstText : String) (out : Int) {ki ko : Nat} {di : Ino} (hk : ki ≠ ko)
    (hin : w.fds ki = some (.file si 0)) (hout : w.fds ko = some (.file di 0))
    (hdi : w.fs.node di = some (.file [])) (hsi : si ≠ di → w.fs.node si = some (.file data))
    {fuel : Nat} (hfuel : data.length < fuel) :
    ∃ w' extra, (copyBetween out fuel ki ko dstText).run (kernel env) w = (some (), w') ∧
      w'.fs = w.fs.setData di extra ∧ w'.mount = w.mount ∧
      (extra = data ↔ (di ≠ si ∨ data = []) ∧ CleanCopy env.choices w.tick data.length) ∧
      printed ((copyBetween out fuel ki ko dstText).events (kernel env) w) =
        [.lit "  Installed: ", .lit dstText, .lit "\n"] := by
  have htail : Says env (do
      let _ ← call (.close ki)
      let _ ← call (.close ko)
      printAll out ["  Installed: ", dstText, "\n"]) _ :=
    (says_close env ki).bind ((says_close env ko).bind (says_printAll env out _))
  have hloop : ∃ w' extra, (copyLoop fuel ki ko).run (kernel env) w = (some (), w') ∧
      w'.fs = w.fs.setData di extra ∧ w'.mount = w.mount ∧
      (extra = data ↔ (di ≠ si ∨ data = []) ∧ CleanCopy env.choices w.tick data.length) := by
    by_cases hne : si = di
    · -- the source was emptied when it was opened for writing
      subst hne
      obtain ⟨fuel, rfl⟩ : ∃ k, fuel = k + 1 := ⟨fuel - 1, by omega⟩
      obtain ⟨hstop, hfs, hmount⟩ := read_at_end env hin hdi (Nat.le_refl 0)
      refine ⟨_, [], ?_, ?_, hmount, ?_⟩
      · change ((if (kernel env w (.read ki 4096)).2.ret > 0 then
          call (.write ko (kernel env w (.read ki 4096)).2.data) >>= fun _ => copyLoop fuel ki ko
          else pure ()) : Sys Unit).run (kernel env) (kernel env w (.read ki 4096)).1 = _
        rw [if_neg hstop]
        rfl
      · rw [FS.setData_self _ _ _ hdi]
        exact hfs
      · constructor
        · rintro rfl
          exact ⟨.inr rfl, .done _⟩
        · rintro ⟨hdisj, _⟩
          rcases hdisj with hne | hnil
          · exact absurd rfl hne
          · exact hnil.symm
    · have h : InCopy w ki ko si di data [] 0 :=
        ⟨hne, hk, hsi hne, hdi, hin, hout, Nat.zero_le _⟩
      obtain ⟨w', extra, hrun, hfs, hmount, _, hclean⟩ := copyLoop_run env h hfuel
      refine ⟨w', extra, hrun, hfs, hmount, hclean.trans ?_⟩
      constructor
      · exact fun hc => ⟨.inl fun h => hne h.symm, hc⟩
      · exact fun hc => hc.2
  obtain ⟨w₁, extra, hrun, hfs, hmount, hiff⟩ := hloop
  obtain ⟨w', hrun', hfs', hmount', htexts⟩ := htail w₁
  refine ⟨w', extra, ?_, hfs'.trans hfs, hmount'.trans hmount, hiff, ?_⟩
  · rw [copyBetween, Prog.run_bind, hrun]
    exact hrun'
  · rw [copyBetween, Prog.events_bind, hrun, printed, List.filterMap_append]
    exact congrArg₂ _ (copyLoop_silent fuel ki ko w) htexts

/-- With the source open and the destination unlinked, if it was. -/
theorem copyInto_run (srcText dstText : String) (out : Int) {w₂ : World} {ki : Nat}
    (hfs : w₂.fs = (unlinks env w dst).getD w.fs) (hmount : w₂.mount = w.mount)
    (htick : w₂.tick = w.tick + 2) (hki : ki < w₂.nextFd) (hin : w₂.fds ki = some (.file si 0))
    (hdata : w₂.fs.node si = some (.file data))
    (hlive : ∀ c t, w.mount = some (c, t) → w₂.fs.isDir c = true)
    {fuel : Nat} (hfuel : data.length < fuel) :
    ∃ w', (copyInto out fuel ki dst dstText).run (kernel env) w₂ = (some (), w') ∧
      (AllOrNothing env w dst data srcText dstText w'
          (printed ((copyInto out fuel ki dst dstText).events (kernel env) w₂)) ↔
        match destination env w dst with
        | none => unlinks env w dst = none
        | some i => Direct env w dst ∧ (i ≠ si ∨ data = []) ∧
            CleanCopy env.choices (w.tick + 3) data.length) := by
  unfold copyInto
  cases hdest : destination env w dst with
  | none =>
      obtain ⟨hret, quiet⟩ := kernel_creat_none hfs hmount htick hdest
      have htail : Says env (do
          printAll out ["  [ERROR] Cannot create dest: ", dstText, "\n"]
          let _ ← call (.close ki)) _ :=
        (says_printAll env out _).bind (says_close env ki)
      obtain ⟨w', hrun, hfs', hmount', htexts⟩ :=
        htail (kernel env w₂ (.openat AT_FDCWD dst creatFlags)).1
      refine ⟨w', ?_, ?_⟩
      · change Prog.run (kernel env) (if (kernel env w₂ (.openat AT_FDCWD dst creatFlags)).2.ret < 0 then
          _ else _) (kernel env w₂ (.openat AT_FDCWD dst creatFlags)).1 = _
        rw [if_pos hret]
        exact hrun
      · change AllOrNothing env w dst data srcText dstText w' (printed (Prog.events (kernel env)
          (if (kernel env w₂ (.openat AT_FDCWD dst creatFlags)).2.ret < 0 then _ else _)
          (kernel env w₂ (.openat AT_FDCWD dst creatFlags)).1)) ↔ _
        rw [if_pos hret, htexts]
        have hfs'' : w'.fs = (unlinks env w dst).getD w.fs := hfs'.trans (quiet.fs.trans hfs)
        have hmount'' : w'.mount = w.mount := hmount'.trans (quiet.mount.trans hmount)
        constructor
        · rintro (⟨himpossible, _⟩ | ⟨_, hsame⟩)
          · simp at himpossible
          · cases hu : unlinks env w dst with
            | none => rfl
            | some fs =>
                rw [hu] at hfs''
                exact absurd hsame (entryAt_of_unlinks hu hfs'' hmount'')
        · intro hu
          rw [hu] at hfs''
          exact .inr ⟨.inr rfl, entryAt_eq env dst hfs'' hmount''⟩
  | some di =>
      obtain ⟨w₃, hopen, hfds, hmount₃, hempty, hother, hentry⟩ :=
        kernel_creat_some hfs hmount htick hlive hdest
      have hin₃ : w₃.fds ki = some (.file si 0) := by
        rw [hfds]
        exact (if_neg (by omega)).trans hin
      have hout₃ : w₃.fds w₂.nextFd = some (.file di 0) := by
        rw [hfds]
        exact if_pos rfl
      have htick₃ : w₃.tick = w.tick + 3 := by
        have hcount := kernel_tick env w₂ (.openat AT_FDCWD dst creatFlags)
        rw [hopen, htick] at hcount
        exact hcount
      obtain ⟨w', extra, hrun, hfs', hmount', hiff, htexts⟩ := copyBetween_run env dstText
        out (Nat.ne_of_lt hki) hin₃ hout₃ hempty
        (fun hne => hother si data hne hdata) hfuel
      rw [htick₃] at hiff
      refine ⟨w', ?_, ?_⟩
      · change Prog.run (kernel env) (if (kernel env w₂ (.openat AT_FDCWD dst creatFlags)).2.ret < 0 then
          _ else copyBetween out fuel ki (kernel env w₂ (.openat AT_FDCWD dst creatFlags)).2.ret dstText)
            (kernel env w₂ (.openat AT_FDCWD dst creatFlags)).1 = _
        rw [hopen, if_neg (by simp)]
        exact hrun
      · change AllOrNothing env w dst data srcText dstText w' (printed (Prog.events (kernel env)
          (if (kernel env w₂ (.openat AT_FDCWD dst creatFlags)).2.ret < 0 then _ else
            copyBetween out fuel ki (kernel env w₂ (.openat AT_FDCWD dst creatFlags)).2.ret dstText)
          (kernel env w₂ (.openat AT_FDCWD dst creatFlags)).1)) ↔ _
        rw [hopen, if_neg (by simp), htexts]
        have hsuccess := hentry w' extra data hfs' (hmount'.trans hmount₃)
        dsimp only
        rw [← hiff, ← hsuccess]
        constructor
        · rintro (⟨_, hdst⟩ | ⟨himpossible, _⟩)
          · exact hdst
          · simp at himpossible
        · exact fun hdst => .inl ⟨rfl, hdst⟩

/-- `copy_file` returns, and it is all-or-nothing exactly if the copy was possible
without damage. The source is any regular file, the destination whatever it may be. -/
theorem copyFile_allOrNothing_iff (env : Env) (w : World) (out : Int) (fuel : Nat) (src dst : Path)
    (srcText dstText : String) (si : Ino) (data : Bytes)
    (source : w.resolve env AT_FDCWD src = .found si) (content : w.fs.node si = some (.file data))
    (mount : ∀ c t, w.mount = some (c, t) → w.fs.isDir c = true) (bound : data.length < fuel) :
    ∃ w', (copyFile out fuel src dst srcText dstText).run (kernel env) w = (some (), w') ∧
      (AllOrNothing env w dst data srcText dstText w'
          (printed ((copyFile out fuel src dst srcText dstText).events (kernel env) w)) ↔
        Copyable env w dst si data) := by
  rw [copyFile_eq]
  unfold Copyable
  cases hf : env.choices.fault w.tick with
  | some e =>
      obtain ⟨hret, quiet⟩ := kernel_fault env hf (.openat AT_FDCWD src O_RDONLY) rfl
      obtain ⟨w', hrun, hfs, hmount, htexts⟩ := says_printAll env out
        ["  [ERROR] Cannot open source: ", srcText, "\n"]
        (kernel env w (.openat AT_FDCWD src O_RDONLY)).1
      refine ⟨w', ?_, ?_⟩
      · change Prog.run (kernel env) (if (kernel env w (.openat AT_FDCWD src O_RDONLY)).2.ret < 0 then
          _ else _) (kernel env w (.openat AT_FDCWD src O_RDONLY)).1 = _
        rw [if_pos hret]
        exact hrun
      · change AllOrNothing env w dst data srcText dstText w' (printed (Prog.events (kernel env)
          (if (kernel env w (.openat AT_FDCWD src O_RDONLY)).2.ret < 0 then _ else _)
          (kernel env w (.openat AT_FDCWD src O_RDONLY)).1)) ↔ _
        rw [if_pos hret, htexts]
        constructor
        · exact fun _ => .inl (by simp)
        · exact fun _ => .inr ⟨.inl rfl, entryAt_eq env dst (hfs.trans quiet.fs)
            (hmount.trans quiet.mount)⟩
  | none =>
      have hexec : w.exec env (.openat AT_FDCWD src O_RDONLY) = .ok (w.openDesc (.file si 0)) := by
        simp only [World.exec, World.openPath, source, World.openNode, content, Abi.mode_rdonly]
      obtain ⟨hret, opened⟩ := kernel_opened env hf hexec
      have htick := kernel_tick env w (.openat AT_FDCWD src O_RDONLY)
      obtain ⟨hfs₂, hmount₂, hfds₂, hnext₂⟩ := kernel_unlinks env dst opened.fs opened.mount htick
      have hin : (kernel env (kernel env w (.openat AT_FDCWD src O_RDONLY)).1
          (.unlinkat AT_FDCWD dst false)).1.fds w.nextFd = some (.file si 0) := by
        rw [hfds₂, opened.fds]
        exact if_pos rfl
      obtain ⟨keepFile, keepDir⟩ := unlinks_keeps env w dst
      obtain ⟨w', hrun, hiff⟩ := copyInto_run srcText dstText out hfs₂ hmount₂
        (by rw [kernel_tick, htick]) (by rw [hnext₂, opened.nextFd]; omega) hin
        (by rw [hfs₂]; exact keepFile si data content)
        (fun c t hm => by rw [hfs₂]; exact keepDir c (mount c t hm)) bound
      refine ⟨w', ?_, ?_⟩
      · change Prog.run (kernel env) (if (kernel env w (.openat AT_FDCWD src O_RDONLY)).2.ret < 0 then
          _ else call (.unlinkat AT_FDCWD dst false) >>= fun _ =>
            copyInto out fuel (kernel env w (.openat AT_FDCWD src O_RDONLY)).2.ret dst dstText)
          (kernel env w (.openat AT_FDCWD src O_RDONLY)).1 = _
        rw [hret, if_neg (by omega)]
        exact hrun
      · change AllOrNothing env w dst data srcText dstText w' (printed (Prog.events (kernel env)
          (if (kernel env w (.openat AT_FDCWD src O_RDONLY)).2.ret < 0 then _ else
            call (.unlinkat AT_FDCWD dst false) >>= fun _ =>
              copyInto out fuel (kernel env w (.openat AT_FDCWD src O_RDONLY)).2.ret dst dstText)
          (kernel env w (.openat AT_FDCWD src O_RDONLY)).1)) ↔ _
        rw [hret, if_neg (by omega)]
        refine Iff.trans hiff ?_
        constructor
        · exact .inr
        · rintro (habsurd | h)
          · exact absurd rfl habsurd
          · exact h

end Theorem

section Sample

/-- A ram disk with two files, of which the second is about to be replaced by the first. -/
def twoFiles : World where
  fs := .ofList [(⟨0, 1⟩, .dir ⟨0, 1⟩ [(nLdLinux, ⟨0, 2⟩), (nLd231, ⟨0, 3⟩)]),
    (⟨0, 2⟩, .file [1, 2]), (⟨0, 3⟩, .file [3])]
  mount := none
  fds _ := none
  nextFd := 0
  log := []
  tick := 0

/-- Nothing fails, but the write at tick `4` takes one byte only. -/
def shortWrite : Env where
  abi := .arm64
  ramRoot := ⟨0, 1⟩
  diskRoot := ⟨1, 1⟩
  choices :=
    { fault := fun _ => none
      leak := fun _ => false
      order := fun _ => []
      chunk := fun _ => 4096
      short := fun t => if t = 4 then some 1 else none
      diskReady := fun _ => false
      direct := fun _ => true
      console := false }

/-- The theorem applies to the run that leaves half a file behind. -/
theorem copyFile_allOrNothing_iff_short :
    ∃ w', (copyFile 1 3 (absPath [nLdLinux]) (absPath [nLd231]) "a" "b").run (kernel shortWrite)
        twoFiles = (some (), w') ∧
      (AllOrNothing shortWrite twoFiles (absPath [nLd231]) [1, 2] "a" "b" w'
          (printed ((copyFile 1 3 (absPath [nLdLinux]) (absPath [nLd231]) "a" "b").events
            (kernel shortWrite) twoFiles)) ↔
        Copyable shortWrite twoFiles (absPath [nLd231]) ⟨0, 2⟩ [1, 2]) :=
  copyFile_allOrNothing_iff shortWrite twoFiles 1 3 (absPath [nLdLinux]) (absPath [nLd231]) "a" "b"
    ⟨0, 2⟩ [1, 2] (by decide +kernel) (by decide +kernel) (fun _ _ h => by cases h)
    (by decide +kernel)

/-- A short write leaves half a file behind a message that says it was installed. -/
theorem copyFile_short_write :
    ∃ w', (copyFile 1 3 (absPath [nLdLinux]) (absPath [nLd231]) "a" "b").run (kernel shortWrite)
        twoFiles = (some (), w') ∧
      ¬ AllOrNothing shortWrite twoFiles (absPath [nLd231]) [1, 2] "a" "b" w'
          (printed ((copyFile 1 3 (absPath [nLdLinux]) (absPath [nLd231]) "a" "b").events
            (kernel shortWrite) twoFiles)) := by
  refine ⟨((copyFile 1 3 (absPath [nLdLinux]) (absPath [nLd231]) "a" "b").run (kernel shortWrite)
    twoFiles).2, Prod.ext (by decide +kernel) rfl, ?_⟩
  rintro (⟨_, i, hi⟩ | ⟨htexts, _⟩)
  · have hhalf : entryAt shortWrite ((copyFile 1 3 (absPath [nLdLinux]) (absPath [nLd231])
        "a" "b").run (kernel shortWrite) twoFiles).2 (absPath [nLd231]) =
        some (⟨0, 4⟩, some (.file [1])) := by decide +kernel
    rw [hhalf] at hi
    cases hi
  · revert htexts
    decide +kernel

end Sample

end Hub11.Recovery
