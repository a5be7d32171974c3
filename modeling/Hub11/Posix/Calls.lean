import Mathlib.Data.List.Dedup
import Hub11.Posix.Kernel
import Hub11.Posix.Forests

/-!
What each system call can do, for callers that do not want to look inside the
kernel: a call either fails and leaves everything as it was, or has the effect of
the file-system operation behind it. A call fails only if it is made to
(`Choices.fault`) or if that operation fails.
-/

namespace Hub11.Posix

open Hub11.Effect

/-- Only the log and the number of calls may differ. This is what a failed call leaves, and what a
call without effect does. -/
structure Quiet (w w' : World) : Prop where
  fs : w'.fs = w.fs
  fds : w'.fds = w.fds
  nextFd : w'.nextFd = w.nextFd
  mount : w'.mount = w.mount

theorem Quiet.refl (w : World) : Quiet w w := ⟨rfl, rfl, rfl, rfl⟩

theorem Quiet.trans {w w' w'' : World} (h : Quiet w w') (h' : Quiet w' w'') : Quiet w w'' :=
  ⟨h'.fs.trans h.fs, h'.fds.trans h.fds, h'.nextFd.trans h.nextFd, h'.mount.trans h.mount⟩

theorem World.desc_eq {w w' : World} (h : w'.fds = w.fds) (fd : Int) : w'.desc fd = w.desc fd := by
  cases fd <;> simp [World.desc, h]

theorem World.resolve_eq (env : Env) {w w' : World} (hfs : w'.fs = w.fs) (hfds : w'.fds = w.fds)
    (hmount : w'.mount = w.mount) (fd : Int) (path : Path) :
    w'.resolve env fd path = w.resolve env fd path := by
  have hbase : w'.base env fd path = w.base env fd path := by
    simp only [World.base, hfds]
  simp only [World.resolve, World.space, hbase, hfs, hmount]

/-- No call is made to fail. -/
def Choices.NoFaults (c : Choices) : Prop := ∀ t, c.fault t = none

/-- A failing `close` frees its descriptor all the same, as on Linux. -/
def Choices.NoLeaks (c : Choices) : Prop := ∀ t, c.fault t ≠ none → c.leak t = false

theorem Choices.NoFaults.noLeaks {c : Choices} (h : c.NoFaults) : c.NoLeaks :=
  fun t ht => absurd (h t) ht

/-- A successful directory operation: the file system is the given one, and descriptors and mounts
are as before. -/
structure Changed (w w' : World) (fs : FS) : Prop where
  fs : w'.fs = fs
  fds : w'.fds = w.fds
  nextFd : w'.nextFd = w.nextFd
  mount : w'.mount = w.mount

/-- The outcome of a call whose work is the file-system operation `res`: it returns 0 and the
operation is done, or it fails and nothing is. Without injected failures it fails only if the
operation does. -/
def Tried (env : Env) (w w' : World) (ret : Int) (res : Except Errno FS) : Prop :=
  (ret = 0 ∧ ∃ fs, res = .ok fs ∧ Changed w w' fs) ∨
    (ret < 0 ∧ Quiet w w' ∧ (env.choices.NoFaults → ∃ e, res = .error e))

theorem kernel_tick (env : Env) (w : World) (op : Syscall) :
    (kernel env w op).1.tick = w.tick + 1 := by
  unfold kernel
  cases w.attempt env op <;> rfl

section Kernel

variable (env : Env) {w : World} {op : Syscall}

theorem Errno.neg_lt (e : Errno) : -(e.code : Int) < 0 := by
  have := e.pos
  omega

/-- A call that goes through is counted. -/
theorem kernel_ok {w' : World} {r : Reply} (h : w.attempt env op = .ok (w', r)) :
    kernel env w op = ({ w' with tick := w.tick + 1 }, r) := by
  unfold kernel
  rw [h]

/-- A call other than `close` that is refused changes nothing. -/
theorem kernel_refused (e : Errno) (hclose : w.refused env op = w) (h : w.attempt env op = .error e) :
    (kernel env w op).2.ret < 0 ∧ Quiet w (kernel env w op).1 := by
  unfold kernel
  rw [h]
  exact ⟨e.neg_lt, by rw [hclose]; exact ⟨rfl, rfl, rfl, rfl⟩⟩

theorem kernel_error (e : Errno) (hclose : w.refused env op = w) (h : w.exec env op = .error e) :
    (kernel env w op).2.ret < 0 ∧ Quiet w (kernel env w op).1 := by
  cases hf : env.choices.fault w.tick with
  | none => exact kernel_refused env e hclose (by simp [World.attempt, hf, h])
  | some e' => exact kernel_refused env e' hclose (by simp [World.attempt, hf])

/-- A call that is not made to fail does its work. -/
theorem kernel_applied {fs : FS} (hf : env.choices.fault w.tick = none)
    (h : w.exec env op = w.applyFS (.ok fs)) :
    (kernel env w op).2.ret = 0 ∧ Changed w (kernel env w op).1 fs := by
  have hatt : w.attempt env op = .ok ({ w with fs := fs }, { ret := 0 }) := by
    simp [World.attempt, hf, h, World.applyFS, Except.map]
  constructor
  · simp [kernel, hatt]
  · constructor <;> simp [kernel, hatt]

theorem kernel_tried {res : Except Errno FS} (hclose : w.refused env op = w)
    (h : w.exec env op = w.applyFS res) :
    Tried env w (kernel env w op).1 (kernel env w op).2.ret res := by
  cases hf : env.choices.fault w.tick with
  | some e =>
      have := kernel_refused env e hclose (by simp [World.attempt, hf])
      refine .inr ⟨this.1, this.2, fun hno => ?_⟩
      rw [hno] at hf
      cases hf
  | none =>
      cases res with
      | error e =>
          have := kernel_error env e hclose (by rw [h]; rfl)
          exact .inr ⟨this.1, this.2, fun _ => ⟨e, rfl⟩⟩
      | ok fs =>
          obtain ⟨hret, changed⟩ := kernel_applied env hf h
          exact .inl ⟨hret, fs, rfl, changed⟩

theorem World.setDesc_fds_self (w : World) (k : Nat) (d : Option Desc) :
    (w.setDesc k d).fds k = d :=
  if_pos rfl

theorem World.setDesc_fds_of_ne (w : World) {k j : Nat} (h : j ≠ k) (d : Option Desc) :
    (w.setDesc k d).fds j = w.fds j :=
  if_neg fun hkj => h (Int.natCast_inj.mp hkj).symm

theorem World.setDesc_fds_eq {w : World} {k : Nat} {d : Desc} (h : w.fds k = some d) :
    (w.setDesc k (some d)).fds = w.fds := by
  funext j
  by_cases hj : j = k
  · rw [hj, w.setDesc_fds_self, h]
  · rw [w.setDesc_fds_of_ne hj]

theorem kernel_puts (env : Env) (w : World) (fd : Int) (t : Text) :
    Quiet w (kernel env w (.puts fd t)).1 := by
  unfold kernel World.attempt
  cases env.choices.fault w.tick with
  | some e => exact ⟨rfl, rfl, rfl, rfl⟩
  | none =>
      simp only [World.exec]
      split
      · rename_i h
        split at h
        · cases h
          exact ⟨rfl, rfl, rfl, rfl⟩
        · cases h
      · exact ⟨rfl, rfl, rfl, rfl⟩

/-- What is written to the console is in the log. -/
theorem kernel_puts_log (hno : env.choices.NoFaults) {fd : Int} (h : w.desc fd = some .console)
    (t : Text) : (kernel env w (.puts fd t)).1.log = w.log ++ [t] := by
  have hatt : w.attempt env (.puts fd t) =
      .ok ({ w with log := w.log ++ [t] }, { ret := 0 }) := by
    simp only [World.attempt, hno w.tick, World.exec, h]
  unfold kernel
  rw [hatt]

/-- `close` frees the descriptor, unless it is made to fail and leaks it. -/
theorem kernel_close (env : Env) (w : World) (k : Nat) :
    (kernel env w (.close k)).1.fs = w.fs ∧
    (kernel env w (.close k)).1.nextFd = w.nextFd ∧
    (kernel env w (.close k)).1.mount = w.mount ∧
    ((kernel env w (.close k)).1.fds = (w.setDesc k none).fds ∨
      ((kernel env w (.close k)).1.fds = w.fds ∧ ¬ env.choices.NoLeaks)) := by
  cases hf : env.choices.fault w.tick with
  | some e =>
      have hatt : w.attempt env (.close k) = .error e := by simp [World.attempt, hf]
      unfold kernel
      rw [hatt]
      cases hleak : env.choices.leak w.tick with
      | true =>
          have hsame : w.refused env (.close k) = w := by simp [World.refused, hleak]
          rw [hsame]
          refine ⟨rfl, rfl, rfl, .inr ⟨rfl, fun hno => ?_⟩⟩
          rw [hno _ (by simp [hf])] at hleak
          cases hleak
      | false =>
          have hfreed : w.refused env (.close k) = w.setDesc k none := by
            simp [World.refused, hleak]
          rw [hfreed]
          exact ⟨rfl, rfl, rfl, .inl rfl⟩
  | none =>
      cases hd : w.desc k with
      | none =>
          have hatt : w.attempt env (.close k) = .error .EBADF := by
            simp [World.attempt, hf, World.exec, hd]
          have hfds : w.fds = (w.setDesc k none).fds := by
            funext j
            by_cases hj : j = k
            · rw [hj, w.setDesc_fds_self]
              exact hd
            · rw [w.setDesc_fds_of_ne hj]
          unfold kernel
          rw [hatt]
          by_cases hleak : env.choices.leak w.tick = true
          · rw [show w.refused env (.close k) = w by simp [World.refused, hleak]]
            exact ⟨rfl, rfl, rfl, .inl hfds⟩
          · rw [show w.refused env (.close k) = w.setDesc k none by simp [World.refused, hleak]]
            exact ⟨rfl, rfl, rfl, .inl rfl⟩
      | some d =>
          have hatt : w.attempt env (.close k) = .ok (w.setDesc k none, { ret := 0 }) := by
            simp [World.attempt, hf, World.exec, hd]
          unfold kernel
          rw [hatt]
          exact ⟨rfl, rfl, rfl, .inl rfl⟩

/-! ### Calls whose path resolves -/

section Resolved

variable {fd : Int} {path : Path} {d : Ino} {n : Name}

theorem kernel_mkdirat_of (h : w.resolveParent env fd path = .ok (d, n)) :
    Tried env w (kernel env w (.mkdirat fd path)).1 (kernel env w (.mkdirat fd path)).2.ret
      (w.fs.mkdir d n) := by
  apply kernel_tried env rfl
  simp only [World.exec, h]
  rfl

theorem kernel_unlinkat_of (h : w.resolveParent env fd path = .ok (d, n)) (removeDir : Bool) :
    Tried env w (kernel env w (.unlinkat fd path removeDir)).1
      (kernel env w (.unlinkat fd path removeDir)).2.ret
      (if removeDir then w.fs.rmdir (w.space env).busy d n else w.fs.unlink d n) := by
  apply kernel_tried env rfl
  simp only [World.exec, h]
  rfl

theorem kernel_symlinkat_of (h : w.resolveParent env fd path = .ok (d, n)) (target : Path) :
    Tried env w (kernel env w (.symlinkat target fd path)).1
      (kernel env w (.symlinkat target fd path)).2.ret (w.fs.symlink target d n) := by
  apply kernel_tried env rfl
  simp only [World.exec, h]
  rfl

end Resolved

end Kernel

/-! ### Listings -/

theorem mem_listing {es : List (Name × Ino)} {n : Name} :
    Comp.name n ∈ listing es ↔ dirGet es n ≠ none := by
  rw [ne_eq, dirGet_eq_none_iff, not_not]
  simp [listing]

/-- A tree that only lost entries lists nothing new. -/
theorem Shrinks.listing_subset {fs fs' : FS} {s k : Ino} {p : List Name} (h : Shrinks fs fs' s)
    (hk : fs.descend s p = some k) (hk' : fs'.descend s p = some k) {es es' : List (Name × Ino)}
    (he : fs.entries k = some es) (he' : fs'.entries k = some es') :
    ∀ c ∈ listing es', c ∈ listing es := by
  intro c hc
  cases c with
  | dot => simp [listing]
  | dotdot => simp [listing]
  | name n =>
      rw [mem_listing, ← FS.child_of_entries _ he'] at hc
      obtain ⟨j, hj⟩ := Option.ne_none_iff_exists'.mp hc
      have hj' : fs'.descend s (p ++ [n]) = some j := by
        rw [FS.descend_append, hk']
        simp [FS.descend_cons, hj]
      have := (h _ j hj').1
      rw [FS.descend_append, hk] at this
      rw [mem_listing, ← FS.child_of_entries _ he]
      intro hnone
      simp [FS.descend_cons, hnone] at this

theorem nodup_listing (es : List (Name × Ino)) : (listing es).Nodup := by
  simp [listing, List.nodup_dedup]

theorem length_listing_le (es : List (Name × Ino)) : (listing es).length ≤ es.length + 2 := by
  have := (List.dedup_sublist (es.map fun e => Comp.name e.1)).length_le
  simp only [List.length_map] at this
  simp only [listing, List.length_cons]
  omega

theorem recLen_pos (c : Comp) : 0 < recLen c := by
  cases c with
  | dot => decide
  | dotdot => decide
  | name n =>
      simp only [recLen]
      omega

theorem recLen_le (c : Comp) : recLen c ≤ 280 := by
  cases c with
  | dot => decide
  | dotdot => decide
  | name n =>
      have := n.valid.2.1
      simp only [recLen]
      omega

theorem fitting_isPrefix (size : Nat) (cs : List Comp) : fitting size cs <+: cs := by
  induction cs generalizing size with
  | nil => exact List.prefix_refl _
  | cons c cs ih =>
      unfold fitting
      split
      · exact List.cons_prefix_cons.mpr ⟨rfl, ih _⟩
      · exact List.nil_prefix

theorem fitting_eq_nil {size : Nat} (hsize : 280 ≤ size) {cs : List Comp}
    (h : fitting size cs = []) : cs = [] := by
  cases cs with
  | nil => rfl
  | cons c cs =>
      have := recLen_le c
      unfold fitting at h
      rw [if_pos (by omega)] at h
      cases h

theorem portion_subset {size : Nat} {choice born pending : List Comp} {c : Comp}
    (h : c ∈ portion size choice born pending) : c ∈ pending := by
  unfold portion at h
  split at h
  · rename_i c' cs hchoice
    have hmem := (fitting_isPrefix _ _).subset h
    rw [← hchoice, List.mem_dedup, List.mem_filter] at hmem
    simpa using hmem.2
  · have hmem := List.mem_of_mem_take ((fitting_isPrefix _ _).subset h)
    exact (List.mem_filter.mp hmem).1

theorem nodup_portion {size : Nat} {choice born pending : List Comp} (hp : pending.Nodup) :
    (portion size choice born pending).Nodup := by
  unfold portion
  split
  · rename_i c' cs hchoice
    refine List.Nodup.sublist (fitting_isPrefix _ _).sublist ?_
    rw [← hchoice]
    exact List.nodup_dedup _
  · exact List.Nodup.sublist (fitting_isPrefix _ _).sublist
      ((hp.filter _).sublist (List.take_sublist _ _))

/-- The end of a listing is reported only when nothing that was there from the start
is left. -/
theorem not_born_of_portion_nil {size : Nat} (hsize : 280 ≤ size)
    {choice born pending : List Comp} (h : portion size choice born pending = []) :
    ∀ c ∈ pending, c ∉ born := by
  unfold portion at h
  split at h
  · exact absurd (fitting_eq_nil hsize h) (by simp)
  · intro c hc hborn
    have htake := fitting_eq_nil hsize h
    have hmem : c ∈ pending.filter (· ∈ born) := by simp [hc, hborn]
    cases hl : pending.filter (· ∈ born) with
    | nil =>
        rw [hl] at hmem
        cases hmem
    | cons c' cs =>
        rw [hl] at htake
        cases htake

/-- `getdents64` on an open directory. -/
theorem kernel_getdents (env : Env) {w : World} {k : Nat} {i : Ino} {born seen : List Comp}
    {es : List (Name × Ino)} (h : w.fds k = some (.dir i born seen))
    (he : w.fs.entries i = some es) (size : Nat) :
    ((kernel env w (.getdents64 k size)).2.ret < 0 ∧
      Quiet w (kernel env w (.getdents64 k size)).1 ∧ ¬ env.choices.NoFaults) ∨
    ∃ got, got = portion size (env.choices.order w.tick) born ((listing es).filter (· ∉ seen)) ∧
      (kernel env w (.getdents64 k size)).2.ret = ((got.map recLen).sum : Nat) ∧
      (kernel env w (.getdents64 k size)).2.dents = got ∧
      (kernel env w (.getdents64 k size)).1.fs = w.fs ∧
      (kernel env w (.getdents64 k size)).1.fds =
        (w.setDesc k (some (.dir i born (seen ++ got)))).fds ∧
      (kernel env w (.getdents64 k size)).1.nextFd = w.nextFd ∧
      (kernel env w (.getdents64 k size)).1.mount = w.mount := by
  cases hf : env.choices.fault w.tick with
  | some e =>
      have hrefused : (kernel env w (.getdents64 k size)).2.ret < 0 ∧
          Quiet w (kernel env w (.getdents64 k size)).1 :=
        kernel_refused env e rfl (by simp [World.attempt, hf])
      refine .inl ⟨hrefused.1, hrefused.2, fun hno => ?_⟩
      rw [hno] at hf
      cases hf
  | none =>
      have hdesc : w.desc (k : Int) = some (.dir i born seen) := h
      generalize hgot : portion size (env.choices.order w.tick) born
        ((listing es).filter (· ∉ seen)) = got
      have hatt : w.attempt env (.getdents64 k size) =
          .ok (w.setDesc k (some (.dir i born (seen ++ got))),
            { ret := ((got.map recLen).sum : Nat), dents := got }) := by
        simp only [World.attempt, hf, World.exec, World.getdents, hdesc, he, hgot]
      refine .inr ⟨got, rfl, ?_⟩
      unfold kernel
      rw [hatt]
      exact ⟨rfl, rfl, rfl, rfl, rfl, rfl⟩

/-! ### Reading and writing -/

/-- No write is short. -/
def Choices.NoShort (c : Choices) : Prop := ∀ t, c.short t = none

/-- Only what the descriptor `k` stands for and the file system may differ: a read, a write, or a
portion of a listing. -/
structure Moved (w w' : World) (k : Nat) (desc : Desc) (fs : FS) : Prop where
  fs : w'.fs = fs
  fds : w'.fds = (w.setDesc k (some desc)).fds
  nextFd : w'.nextFd = w.nextFd
  mount : w'.mount = w.mount

section Transfer

variable {env : Env} {w : World} {k : Nat} {i : Ino} {off : Nat} {data : Bytes}

theorem kernel_read (hf : env.choices.fault w.tick = none) (h : w.fds k = some (.file i off))
    (hdata : w.fs.node i = some (.file data)) (count : Nat) :
    ∃ got, got = (data.drop off).take (min count (max 1 (env.choices.chunk w.tick))) ∧
      (kernel env w (.read k count)).2.ret = got.length ∧
      (kernel env w (.read k count)).2.data = got ∧
      Moved w (kernel env w (.read k count)).1 k (.file i (off + got.length)) w.fs := by
  have hdesc : w.desc (k : Int) = some (.file i off) := h
  generalize hgot : (data.drop off).take (min count (max 1 (env.choices.chunk w.tick))) = got
  have hatt : w.attempt env (.read k count) =
      .ok (w.setDesc k (some (.file i (off + got.length))), { ret := got.length, data := got }) := by
    simp only [World.attempt, hf, World.exec, World.readFile, hdesc, hdata, hgot]
  refine ⟨got, rfl, ?_⟩
  unfold kernel
  rw [hatt]
  exact ⟨rfl, rfl, rfl, rfl, rfl, rfl⟩

/-- The part of the buffer that a write takes. -/
theorem kernel_write_part (hf : env.choices.fault w.tick = none) (h : w.fds k = some (.file i off))
    (hdata : w.fs.node i = some (.file data)) (buf : Bytes) :
    ∃ part, part = buf.take ((env.choices.short w.tick).getD buf.length) ∧
      Moved w (kernel env w (.write k buf)).1 k (.file i (off + part.length))
        (w.fs.setData i (overwrite data off part)) := by
  have hdesc : w.desc (k : Int) = some (.file i off) := h
  generalize hpart : buf.take ((env.choices.short w.tick).getD buf.length) = part
  have hatt : w.attempt env (.write k buf) =
      .ok ({ w with fs := w.fs.setData i (overwrite data off part) }.setDesc k
        (some (.file i (off + part.length))), { ret := part.length }) := by
    simp only [World.attempt, hf, World.exec, World.writeFile, hdesc, hdata, hpart]
  refine ⟨part, rfl, ?_⟩
  unfold kernel
  rw [hatt]
  exact ⟨rfl, rfl, rfl, rfl⟩

theorem kernel_write (hno : env.choices.NoFaults) (hwhole : env.choices.NoShort)
    (h : w.fds k = some (.file i off)) (hdata : w.fs.node i = some (.file data)) (buf : Bytes) :
    Moved w (kernel env w (.write k buf)).1 k (.file i (off + buf.length))
      (w.fs.setData i (overwrite data off buf)) := by
  obtain ⟨part, hpart, moved⟩ := kernel_write_part (hno w.tick) h hdata buf
  rw [hwhole, Option.getD_none, List.take_length] at hpart
  rwa [hpart] at moved

/-- A read or write that is made to fail changes nothing. -/
theorem kernel_fault (env : Env) {e : Errno} (hf : env.choices.fault w.tick = some e)
    (op : Syscall) (hop : w.refused env op = w) :
    (kernel env w op).2.ret < 0 ∧ Quiet w (kernel env w op).1 :=
  kernel_refused env e hop (by simp [World.attempt, hf])

end Transfer

/-! ### Calls relative to an open directory -/

section Relative

variable {env : Env} {w : World} {k : Nat} {i : Ino} {born seen : List Comp} {n : Name}

/-- The relative path of one name. -/
abbrev Path.ofName (n : Name) : Path := ⟨false, [.name n]⟩

theorem World.base_of_open (h : w.fds k = some (.dir i born seen)) (comps : List Comp) :
    w.base env k ⟨false, comps⟩ = .ok i := by
  have hk : (k : Int) ≠ AT_FDCWD := by
    unfold AT_FDCWD
    omega
  unfold World.base
  rw [if_neg (by simp), if_neg hk, ← Int.ofNat_eq_natCast]
  dsimp only
  rw [h]

theorem World.base_of_negative {fd : Int} (hneg : fd < 0) (hcwd : fd ≠ AT_FDCWD)
    (comps : List Comp) : w.base env fd ⟨false, comps⟩ = .error .EBADF := by
  unfold World.base
  rw [if_neg (by simp), if_neg hcwd]
  cases fd with
  | ofNat k => exact absurd hneg (by simp)
  | negSucc k => rfl

theorem World.resolveParent_of_open (h : w.fds k = some (.dir i born seen)) :
    w.resolveParent env k (.ofName n) = .ok (i, n) := by
  unfold World.resolveParent Path.ofName
  rw [World.base_of_open h]
  rfl

theorem World.resolve_of_open (h : w.fds k = some (.dir i born seen)) :
    w.resolve env k (.ofName n) = w.fs.lookup (w.space env) i [.name n] := by
  unfold World.resolve Path.ofName
  rw [World.base_of_open h]

theorem World.resolveParent_of_negative {fd : Int} (hneg : fd < 0) (hcwd : fd ≠ AT_FDCWD) :
    w.resolveParent env fd (.ofName n) = .error .EBADF := by
  unfold World.resolveParent Path.ofName
  rw [World.base_of_negative hneg hcwd]
  rfl

theorem kernel_renameat (env : Env) {j : Nat} {d : Ino} {b s : List Comp}
    (hsrc : w.fds k = some (.dir i born seen)) (hdst : w.fds j = some (.dir d b s)) (n : Name) :
    Tried env w (kernel env w (.renameat k (.ofName n) j (.ofName n))).1
      (kernel env w (.renameat k (.ofName n) j (.ofName n))).2.ret
      (w.fs.rename (w.space env).busy i n d n) := by
  refine kernel_tried env rfl ?_
  simp only [World.exec, World.resolveParent_of_open hsrc, World.resolveParent_of_open hdst]
  rfl

theorem kernel_renameat_negative (env : Env) {fd : Int} (hsrc : w.fds k = some (.dir i born seen))
    (hneg : fd < 0) (hcwd : fd ≠ AT_FDCWD) (n : Name) :
    (kernel env w (.renameat k (.ofName n) fd (.ofName n))).2.ret < 0 ∧
      Quiet w (kernel env w (.renameat k (.ofName n) fd (.ofName n))).1 := by
  refine kernel_error env .EBADF rfl ?_
  simp only [World.exec, World.resolveParent_of_open hsrc,
    World.resolveParent_of_negative hneg hcwd]
  rfl

theorem kernel_mkdirat (env : Env) (h : w.fds k = some (.dir i born seen)) (n : Name) :
    Tried env w (kernel env w (.mkdirat k (.ofName n))).1
      (kernel env w (.mkdirat k (.ofName n))).2.ret (w.fs.mkdir i n) :=
  kernel_mkdirat_of env (World.resolveParent_of_open h)

theorem kernel_mkdirat_negative (env : Env) {fd : Int} (hneg : fd < 0) (hcwd : fd ≠ AT_FDCWD)
    (n : Name) :
    (kernel env w (.mkdirat fd (.ofName n))).2.ret < 0 ∧
      Quiet w (kernel env w (.mkdirat fd (.ofName n))).1 := by
  refine kernel_error env .EBADF rfl ?_
  simp only [World.exec, World.resolveParent_of_negative hneg hcwd]
  rfl

theorem kernel_rmdirat (env : Env) (h : w.fds k = some (.dir i born seen)) (n : Name) :
    Tried env w (kernel env w (.unlinkat k (.ofName n) true)).1
      (kernel env w (.unlinkat k (.ofName n) true)).2.ret
      (w.fs.rmdir (w.space env).busy i n) :=
  kernel_unlinkat_of env (World.resolveParent_of_open h) true

/-- A descriptor was opened on `d`. -/
structure Opened (w w' : World) (d : Desc) : Prop where
  fs : w'.fs = w.fs
  fds : w'.fds = fun k => if k = w.nextFd then some d else w.fds k
  nextFd : w'.nextFd = w.nextFd + 1
  mount : w'.mount = w.mount

theorem Opened.fds_lt {w w' : World} {desc : Desc} (h : Opened w w' desc) {k : Nat}
    (hk : k < w.nextFd) : w'.fds k = w.fds k := by
  rw [h.fds]
  exact if_neg (by omega)

theorem Opened.bound {w w' : World} {desc : Desc} (h : Opened w w' desc)
    (hbound : ∀ k, w.nextFd ≤ k → w.fds k = none) : ∀ k, w'.nextFd ≤ k → w'.fds k = none := by
  intro k hk
  rw [h.nextFd] at hk
  rw [h.fds]
  exact (if_neg (by omega)).trans (hbound k (by omega))

/-- What was open stays open. -/
theorem Opened.desc {w w' : World} {d : Desc} (h : Opened w w' d)
    (hbound : ∀ k, w.nextFd ≤ k → w.fds k = none) {fd : Int} {x : Desc} (hfd : w.desc fd = some x) :
    w'.desc fd = some x := by
  cases fd with
  | ofNat k =>
      have hlt : k < w.nextFd := by
        by_contra hge
        rw [World.desc, hbound k (by omega)] at hfd
        cases hfd
      exact (h.fds_lt hlt).trans hfd
  | negSucc k => cases hfd

theorem Opened.quiet {w w₁ w₂ : World} {desc : Desc} (h : Opened w w₁ desc) (q : Quiet w₁ w₂) :
    Opened w w₂ desc :=
  ⟨q.fs.trans h.fs, q.fds.trans h.fds, q.nextFd.trans h.nextFd, q.mount.trans h.mount⟩

theorem kernel_opened (env : Env) {w : World} {op : Syscall} {desc : Desc}
    (hf : env.choices.fault w.tick = none) (h : w.exec env op = .ok (w.openDesc desc)) :
    (kernel env w op).2.ret = w.nextFd ∧ Opened w (kernel env w op).1 desc := by
  have hatt : w.attempt env op = .ok (w.openDesc desc) := by
    simp only [World.attempt, hf, h]
  constructor
  · simp [kernel, hatt, World.openDesc]
  · constructor <;> simp [kernel, hatt, World.openDesc]

/-- Opening a node without `O_CREAT` does nothing but open it. -/
theorem World.openNode_opens {env : Env} {w : World} {i : Ino} {mode : OpenMode}
    (hmode : mode ≠ .creat) :
    (∃ e, w.openNode env i mode = .error e) ∨
    ∃ desc, w.openNode env i mode = .ok (w.openDesc desc) := by
  unfold World.openNode
  cases mode with
  | creat => exact absurd rfl hmode
  | rdonly => split <;> simp
  | directory => split <;> simp
  | direct => cases env.choices.direct i <;> split <;> simp

/-- `openat` without `O_CREAT` opens something or changes nothing. -/
theorem kernel_openat (env : Env) (w : World) (fd : Int) (path : Path) (flags : Nat)
    (hflags : env.abi.mode flags ≠ .creat) :
    ((kernel env w (.openat fd path flags)).2.ret < 0 ∧
      Quiet w (kernel env w (.openat fd path flags)).1) ∨
    ∃ desc, (kernel env w (.openat fd path flags)).2.ret = w.nextFd ∧
      Opened w (kernel env w (.openat fd path flags)).1 desc := by
  have hopen : (∃ e, w.openPath env fd path flags = .error e) ∨
      ∃ desc, w.openPath env fd path flags = .ok (w.openDesc desc) := by
    unfold World.openPath
    split
    · exact World.openNode_opens hflags
    · exact .inl ⟨_, if_neg hflags⟩
    · exact .inl ⟨_, rfl⟩
  cases hf : env.choices.fault w.tick with
  | some e => exact .inl (kernel_refused env e rfl (by simp [World.attempt, hf]))
  | none =>
      rcases hopen with ⟨e, he⟩ | ⟨desc, hok⟩
      · exact .inl (kernel_error env e rfl he)
      · exact .inr ⟨desc, kernel_opened env hf hok⟩

/-- Lookup of one name: a link is followed, anything else is the result. -/
theorem FS.lookup_name (fs : FS) (sp : Space) (i : Ino) (n : Name) :
    fs.lookup sp i [.name n] =
      match fs.entries i with
      | none => .fail .ENOTDIR
      | some es =>
          match dirGet es n with
          | none => .missing i n
          | some j =>
              match fs.node j with
              | some (.symlink t) =>
                  fs.walk sp 39 (if t.absolute then sp.root else i) (t.comps ++ [])
              | _ => .found (sp.cross j) := rfl

/-- If the entry `n` of a directory is a link, it leads to no directory. Then `openat` of the entry
opens no directory through it. -/
def World.LinkAvoidsDirs (env : Env) (w : World) (i : Ino) (n : Name) : Prop :=
  ∀ j t, w.fs.child i n = some j → w.fs.node j = some (.symlink t) →
    ∀ l, w.fs.lookup (w.space env) i [.name n] = .found l → w.fs.isDir l = false

theorem World.linkAvoidsDirs_of_not_link {env : Env} {w : World} {i : Ino} {n : Name}
    (h : ∀ j t, w.fs.view i [n] = some (.leaf j) → w.fs.node j ≠ some (.symlink t)) :
    w.LinkAvoidsDirs env i n := by
  intro j t hj ht
  refine absurd ht (h j t ?_)
  simp [FS.view, FS.descend_cons, hj, FS.obj, ht]

theorem World.openNode_of_dir (env : Env) {j : Ino} {es : List (Name × Ino)} {mode : OpenMode}
    (hcreat : mode ≠ .creat) (hdirect : mode ≠ .direct) (h : w.fs.entries j = some es) :
    w.openNode env j mode = .ok (w.openDesc (.dir j (listing es) [])) := by
  unfold FS.entries at h
  unfold World.openNode
  split at h
  · rename_i hn
    cases h
    cases mode <;> simp_all
  · cases h

theorem World.openNode_direct (env : Env) {j : Ino} {es : List (Name × Ino)}
    (h : w.fs.entries j = some es) : w.openNode env j .direct = .error .EINVAL := by
  unfold FS.entries at h
  unfold World.openNode
  split at h
  · rename_i hn
    rw [hn]
  · cases h

/-- Only a directory is opened as one, and none with `O_DIRECT`. -/
theorem World.openNode_of_not_dir (env : Env) {j : Ino} {mode : OpenMode} (hcreat : mode ≠ .creat)
    (h : mode = .direct ∨ w.fs.isDir j = false) :
    (∃ e, w.openNode env j mode = .error e) ∨
      (mode ≠ .directory ∧ w.openNode env j mode = .ok (w.openDesc (.file j 0))) := by
  unfold World.openNode
  cases hn : w.fs.node j with
  | none => simp
  | some node =>
      cases node with
      | dir _ es =>
          have hdirect : mode = .direct := by simpa [FS.isDir, FS.entries, hn] using h
          simp [hdirect]
      | file data =>
          cases mode with
          | creat => exact absurd rfl hcreat
          | rdonly => simp
          | directory => simp
          | direct => by_cases hd : env.choices.direct j = true <;> simp [hd]
      | symlink t => simp

/-- A name that is no link leads to its own inode. -/
theorem FS.lookup_of_child {fs : FS} {sp : Space} {i j : Ino} {n : Name}
    (hc : fs.child i n = some j) (hlink : ∀ t, fs.node j ≠ some (.symlink t)) :
    fs.lookup sp i [.name n] = .found (sp.cross j) := by
  obtain ⟨es, he⟩ := fs.isDir_iff.mp (fs.isDir_of_child hc)
  rw [fs.child_of_entries he] at hc
  rw [FS.lookup_name, he]
  simp only [hc]

theorem FS.lookup_of_no_child {fs : FS} {sp : Space} {i : Ino} {n : Name}
    (hc : fs.child i n = none) (j : Ino) : fs.lookup sp i [.name n] ≠ .found j := by
  rw [FS.lookup_name]
  cases he : fs.entries i with
  | none => simp
  | some es =>
      rw [fs.child_of_entries he] at hc
      simp [hc]

/-- The name of an entry is looked up in the directory that the descriptor is open on. -/
theorem World.openPath_of_open {flags : Nat} (hcreat : env.abi.mode flags ≠ .creat)
    (h : w.fds k = some (.dir i born seen)) (n : Name) :
    w.openPath env k (.ofName n) flags =
      match w.fs.lookup (w.space env) i [.name n] with
      | .found j => w.openNode env j (env.abi.mode flags)
      | .missing _ _ => .error .ENOENT
      | .fail e => .error e := by
  unfold World.openPath
  rw [World.resolve_of_open h]
  split <;> simp_all

/-- In a directory without mount points whose links lead to no directory, only the
subdirectories are opened as directories. With `O_DIRECT` not even these are, but a file may
be opened. -/
theorem World.openPath_subdir {flags : Nat} (hcreat : env.abi.mode flags ≠ .creat)
    (h : w.fds k = some (.dir i born seen)) (n : Name)
    (hcross : ∀ j, w.fs.child i n = some j → (w.space env).cross j = j)
    (hlinks : env.abi.mode flags ≠ .direct → w.LinkAvoidsDirs env i n) :
    (∃ j es, env.abi.mode flags ≠ .direct ∧ w.fs.child i n = some j ∧ w.fs.entries j = some es ∧
      w.openPath env k (.ofName n) flags = .ok (w.openDesc (.dir j (listing es) []))) ∨
    (∃ j, env.abi.mode flags ≠ .directory ∧
      w.openPath env k (.ofName n) flags = .ok (w.openDesc (.file j 0))) ∨
    ∃ e, w.openPath env k (.ofName n) flags = .error e ∧
      (env.abi.mode flags = .directory → ∀ j, w.fs.child i n = some j → w.fs.isDir j = false) := by
  have hopen := World.openPath_of_open hcreat h n
  by_cases hsub : env.abi.mode flags ≠ .direct ∧
      ∃ j, w.fs.child i n = some j ∧ w.fs.isDir j = true
  · obtain ⟨hdirect, j, hc, hdir⟩ := hsub
    obtain ⟨es, he⟩ := w.fs.isDir_iff.mp hdir
    have hlink : ∀ t, w.fs.node j ≠ some (.symlink t) := by
      intro t ht
      simp [FS.entries, ht] at he
    refine .inl ⟨j, es, hdirect, hc, he, ?_⟩
    rw [hopen, FS.lookup_of_child hc hlink, hcross j hc]
    exact World.openNode_of_dir env hcreat hdirect he
  · have hno : env.abi.mode flags = .directory →
        ∀ j, w.fs.child i n = some j → w.fs.isDir j = false := by
      intro hmode j hc
      by_contra hdir
      exact hsub ⟨by simp [hmode], j, hc, by simpa using hdir⟩
    rw [hopen]
    cases hl : w.fs.lookup (w.space env) i [.name n] with
    | missing d m => exact .inr (.inr ⟨_, rfl, hno⟩)
    | fail e => exact .inr (.inr ⟨_, rfl, hno⟩)
    | found j =>
        have hj : env.abi.mode flags = .direct ∨ w.fs.isDir j = false := by
          by_cases hdirect : env.abi.mode flags = .direct
          · exact .inl hdirect
          · refine .inr ?_
            by_contra hdir
            rw [Bool.not_eq_false] at hdir
            cases hc : w.fs.child i n with
            | none => exact FS.lookup_of_no_child hc j hl
            | some c =>
                by_cases hlink : ∃ t, w.fs.node c = some (.symlink t)
                · obtain ⟨t, ht⟩ := hlink
                  rw [hlinks hdirect c t hc ht j hl] at hdir
                  cases hdir
                · rw [FS.lookup_of_child hc (by simpa using hlink), hcross c hc] at hl
                  cases hl
                  exact hsub ⟨hdirect, j, hc, hdir⟩
        rcases World.openNode_of_not_dir env hcreat hj with ⟨e, he⟩ | ⟨hmode, hok⟩
        · exact .inr (.inr ⟨e, he, hno⟩)
        · exact .inr (.inl ⟨j, hmode, hok⟩)

theorem kernel_openat_subdir (env : Env) {flags : Nat} (hcreat : env.abi.mode flags ≠ .creat)
    (h : w.fds k = some (.dir i born seen)) (n : Name)
    (hcross : ∀ j, w.fs.child i n = some j → (w.space env).cross j = j)
    (hlinks : env.abi.mode flags ≠ .direct → w.LinkAvoidsDirs env i n) :
    ((kernel env w (.openat k (.ofName n) flags)).2.ret < 0 ∧
      Quiet w (kernel env w (.openat k (.ofName n) flags)).1 ∧
      (env.choices.NoFaults → env.abi.mode flags = .directory →
        ∀ j, w.fs.child i n = some j → w.fs.isDir j = false)) ∨
    (∃ j, env.abi.mode flags ≠ .directory ∧
      (kernel env w (.openat k (.ofName n) flags)).2.ret = w.nextFd ∧
      Opened w (kernel env w (.openat k (.ofName n) flags)).1 (.file j 0)) ∨
    ∃ j es, env.abi.mode flags ≠ .direct ∧ w.fs.child i n = some j ∧ w.fs.entries j = some es ∧
      (kernel env w (.openat k (.ofName n) flags)).2.ret = w.nextFd ∧
      Opened w (kernel env w (.openat k (.ofName n) flags)).1 (.dir j (listing es) []) := by
  cases hf : env.choices.fault w.tick with
  | some e =>
      have hrefused : (kernel env w (.openat k (.ofName n) flags)).2.ret < 0 ∧
          Quiet w (kernel env w (.openat k (.ofName n) flags)).1 :=
        kernel_refused env e rfl (by simp [World.attempt, hf])
      refine .inl ⟨hrefused.1, hrefused.2, fun hno => ?_⟩
      rw [hno] at hf
      cases hf
  | none =>
      rcases World.openPath_subdir hcreat h n hcross hlinks with
        ⟨j, es, hdirect, hc, he, hopen⟩ | ⟨j, hmode, hopen⟩ | ⟨e, hopen, hno⟩
      · exact .inr (.inr ⟨j, es, hdirect, hc, he, kernel_opened env hf hopen⟩)
      · exact .inr (.inl ⟨j, hmode, kernel_opened env hf hopen⟩)
      · have herr : (kernel env w (.openat k (.ofName n) flags)).2.ret < 0 ∧
            Quiet w (kernel env w (.openat k (.ofName n) flags)).1 :=
          kernel_error env e rfl hopen
        exact .inl ⟨herr.1, herr.2, fun _ => hno⟩

theorem kernel_openat_negative (env : Env) {fd : Int} (hneg : fd < 0) (hcwd : fd ≠ AT_FDCWD) (n : Name)
    (flags : Nat) :
    (kernel env w (.openat fd (.ofName n) flags)).2.ret < 0 ∧
      Quiet w (kernel env w (.openat fd (.ofName n) flags)).1 := by
  refine kernel_error env .EBADF rfl ?_
  simp only [World.exec, World.openPath, World.resolve, Path.ofName,
    World.base_of_negative hneg hcwd]

end Relative

end Hub11.Posix
