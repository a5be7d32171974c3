import Hub11.Recovery.Merge

/-!
What one iteration of `merge_dir` does with an entry it can neither rename nor merge.

After a failed `renameat` the code runs `openat`, `mkdirat`, `openat` and `rmdir` whatever
the reason was. If one of the two `openat` calls fails there is no recursion, and the
entry is left alone exactly if neither the `mkdirat` nor the `rmdir` goes through.
-/

namespace Hub11.Recovery

open Hub11.Effect Hub11.Posix

/-- A call was made, and failed. It is read off the events of a run, so that it can be said which of
its calls are meant. -/
def Failed (events : List ((_ : Syscall) × Reply)) (op : Syscall) : Prop :=
  ∃ r, ⟨op, r⟩ ∈ events ∧ r.ret < 0

section Iteration

variable (env : Env) (w : World) (out : Int) (sk : Nat) (dstFd : Int) (indent : String) (n : Name)

/-- The calls of one iteration itself, up to the recursive call if there is one. -/
def ownCalls : List ((_ : Syscall) × Reply) :=
  (mergeEntry out (fun _ _ => .spent) sk dstFd indent (.name n)).events (kernel env) w

open Classical in
/-- When the iteration comes to its `rmdir`: three texts, `renameat`, a text, `openat`,
`mkdirat`, `openat`, and a `close` if one of the `openat` calls succeeded. -/
noncomputable def rmdirTick : Nat :=
  w.tick + if Failed (ownCalls env w out sk dstFd indent n) (.openat sk (.ofName n) dirFlags) ∧
    Failed (ownCalls env w out sk dstFd indent n) (.openat dstFd (.ofName n) dirFlags) then 8 else 9

/-- The `mkdirat` does not go through, and neither does the `rmdir`. Both can be told from the trees
and the pattern of failures. -/
def Spared (S D : Ino) : Prop :=
  (dstFd < 0 ∨ w.fs.view D [n] ≠ none ∨ env.choices.fault (w.tick + 6) ≠ none) ∧
    ((w.fs.view S).sub n ≠ View.one .dir ∨
      env.choices.fault (rmdirTick env w out sk dstFd indent n) ≠ none)

end Iteration

/-- The end of an iteration after the recursive call. -/
def endEntry (sk : Nat) (n : Name) (subSrc subDst : Int) : Sys Unit := do
  closeOpen subSrc
  closeOpen subDst
  let _ ← call (.unlinkat sk (.ofName n) true)

theorem endEntry_issues (sk : Nat) (n : Name) (subSrc subDst : Int) :
    (endEntry sk n subSrc subDst).Issues fun op =>
      (∃ fd, op = .close fd) ∨ op = .unlinkat sk (.ofName n) true := by
  have hclose : ∀ fd, (closeOpen fd).Issues fun op =>
      (∃ fd, op = .close fd) ∨ op = .unlinkat sk (.ofName n) true := by
    intro fd
    unfold closeOpen onlyIf
    split
    · exact ⟨.inl ⟨fd, rfl⟩, fun _ => trivial⟩
    · trivial
  exact (hclose subSrc).bind fun _ => (hclose subDst).bind fun _ => ⟨.inr rfl, fun _ => trivial⟩

section Exact

variable {ι : Type} {env : Env} {dev : Nat} {top : ι → Ino} {loc : Bool → ι × List Name}
  {q : List Name} {s d : Ino} {sk : Nat} {dstFd : Int} {w : World}

/-- `mkdirat` of a name, with the exact condition for it to succeed. -/
theorem mkdir_exact (env : Env) (R : Ready dev top loc .faulty q s d sk dstFd w) (n : Name) :
    (0 ≤ dstFd ∧ w.fs.view d [n] = none ∧ env.choices.fault w.tick = none ∧
      Stage dev s d n ((w.fs.view s).sub n) (View.one .dir) w
        (kernel env w (.mkdirat dstFd (.ofName n))).1) ∨
    ((dstFd < 0 ∨ w.fs.view d [n] ≠ none ∨ env.choices.fault w.tick ≠ none) ∧
      Quiet w (kernel env w (.mkdirat dstFd (.ofName n))).1) := by
  cases hf : env.choices.fault w.tick with
  | some e =>
      exact .inr ⟨.inr (.inr (by simp)), (kernel_fault env hf (.mkdirat dstFd (.ofName n)) rfl).2⟩
  | none =>
      cases R.dst with
      | absent _ hneg hcwd => exact .inr ⟨.inl hneg, (kernel_mkdirat_negative env hneg hcwd n).2⟩
      | @opened k born seen hdst =>
          have hexec : w.exec env (.mkdirat (k : Nat) (.ofName n)) = w.applyFS (w.fs.mkdir d n) := by
            simp only [World.exec, World.resolveParent_of_open hdst]
            rfl
          rcases mkdir_outcome R.forest R.trees.srcDir R.trees.dstDir n with
            ⟨e, he, hthere⟩ | ⟨fs', hok, hnone, hvs, hvd, hkept⟩
          · rw [he] at hexec
            exact .inr ⟨.inr (.inl hthere), (kernel_error env e rfl hexec).2⟩
          · rw [hok] at hexec
            obtain ⟨_, changed⟩ := kernel_applied env hf hexec
            refine .inl ⟨Int.natCast_nonneg k, hnone, rfl, ?_⟩
            refine ⟨by rw [changed.fs]; exact hkept, changed.mount,
              Nat.le_of_eq changed.nextFd.symm, ?_, ?_⟩
            · rw [changed.fs, hvs, View.set_sub]
            · rw [changed.fs, hvd]

/-- `rmdir` of a name, with the exact condition for it to succeed. -/
theorem rmdir_exact (env : Env) (R : Ready dev top loc .faulty q s d sk dstFd w) (n : Name) :
    ((w.fs.view s).sub n = View.one .dir ∧ env.choices.fault w.tick = none ∧
      Stage dev s d n View.empty ((w.fs.view d).sub n) w
        (kernel env w (.unlinkat sk (.ofName n) true)).1) ∨
    (((w.fs.view s).sub n ≠ View.one .dir ∨ env.choices.fault w.tick ≠ none) ∧
      Quiet w (kernel env w (.unlinkat sk (.ofName n) true)).1) := by
  cases hf : env.choices.fault w.tick with
  | some e => exact .inr ⟨.inr (by simp), (kernel_fault env hf _ rfl).2⟩
  | none =>
      obtain ⟨born, seen, hsrc⟩ := R.src
      have hexec : w.exec env (.unlinkat sk (.ofName n) true) =
          w.applyFS (w.fs.rmdir (w.space env).busy s n) := by
        simp only [World.exec, World.resolveParent_of_open hsrc]
        rfl
      rcases rmdir_outcome R.forest R.trees.srcDir R.trees.dstDir n (R.not_busy env) with
        ⟨e, he, hno⟩ | ⟨fs', hok, hone, hvs, hvd, hkept⟩
      · rw [he] at hexec
        exact .inr ⟨.inl hno, (kernel_error env e rfl hexec).2⟩
      · rw [hok] at hexec
        obtain ⟨_, changed⟩ := kernel_applied env hf hexec
        refine .inl ⟨hone, rfl, ?_⟩
        refine ⟨by rw [changed.fs]; exact hkept, changed.mount,
          Nat.le_of_eq changed.nextFd.symm, ?_, ?_⟩
        · rw [changed.fs, hvs]
        · rw [changed.fs, hvd, View.set_sub]

/-- After `openat` of a subdirectory, through a link or not, the merge is as ready as before. -/
theorem Ready.of_openat (env : Env) (R : Ready dev top loc .faulty q s d sk dstFd w) (fd : Int)
    (n : Name) :
    Ready dev top loc .faulty q s d sk dstFd (kernel env w (.openat fd (.ofName n) dirFlags)).1 ∧
      (kernel env w (.openat fd (.ofName n) dirFlags)).1.fs = w.fs ∧
      (kernel env w (.openat fd (.ofName n) dirFlags)).1.mount = w.mount ∧
      w.nextFd ≤ (kernel env w (.openat fd (.ofName n) dirFlags)).1.nextFd ∧
      ((kernel env w (.openat fd (.ofName n) dirFlags)).2.ret < 0 ∨
        (kernel env w (.openat fd (.ofName n) dirFlags)).2.ret = w.nextFd) := by
  rcases kernel_openat env w fd (.ofName n) dirFlags (mode_dirFlags_ne_creat _) with
    ⟨hret, quiet⟩ | ⟨desc, hret, opened⟩
  · exact ⟨R.of_quiet quiet, quiet.fs, quiet.mount, Nat.le_of_eq quiet.nextFd.symm, .inl hret⟩
  · refine ⟨R.of_kept ?_ opened.mount (fun k hk => opened.fds_lt hk) (opened.bound R.bound),
      opened.fs, opened.mount, by rw [opened.nextFd]; omega, .inr hret⟩
    rw [opened.fs]
    exact Kept.refl R.forest R.trees.srcDir R.trees.dstDir

theorem Ready.of_close (env : Env) (R : Ready dev top loc .faulty q s d sk dstFd w) {k : Nat}
    (hsk : k ≠ sk) (hdst : (k : Int) ≠ dstFd) :
    Ready dev top loc .faulty q s d sk dstFd (kernel env w (.close k)).1 := by
  obtain ⟨hfs, hnext, hmount, hfds⟩ := kernel_close env w k
  have hother : ∀ j, j ≠ k → (kernel env w (.close k)).1.fds j = w.fds j := by
    intro j hj
    rcases hfds with hfds | ⟨hfds, _⟩
    · rw [hfds, w.setDesc_fds_of_ne hj]
    · rw [hfds]
  refine ⟨hfs ▸ R.trees, ?_, ?_, fun j hj => ?_, fun c t hct => R.mount c t (hmount ▸ hct)⟩
  · obtain ⟨born, seen, hsrc⟩ := R.src
    exact ⟨born, seen, (hother sk hsk.symm).trans hsrc⟩
  · cases R.dst with
    | absent hm hneg hcwd => exact .absent hm hneg hcwd
    | @opened j born seen hfd =>
        refine .opened ((hother j fun h => hdst ?_).trans hfd)
        rw [h]
  · have hnone := R.bound j (hnext ▸ hj)
    by_cases hjk : j = k
    · rcases hfds with hfds | ⟨hfds, _⟩
      · rw [hfds, hjk]
        exact w.setDesc_fds_self k none
      · rw [hfds]
        exact hnone
    · exact (hother j hjk).trans hnone

/-- The calls up to the `rmdir`, when at most one descriptor has to be closed. -/
theorem endEntry_run (env : Env) (R : Ready dev top loc .faulty q s d sk dstFd w) (n : Name)
    {subSrc subDst : Int} (hstop : subSrc < 0 ∨ subDst < 0)
    (hsrc : ∀ k : Nat, (k : Int) = subSrc ∨ (k : Int) = subDst → k ≠ sk ∧ (k : Int) ≠ dstFd) :
    ∃ w₁, (endEntry sk n subSrc subDst).run (kernel env) w =
        (some (), (kernel env w₁ (.unlinkat sk (.ofName n) true)).1) ∧
      w₁.fs = w.fs ∧ w.nextFd ≤ w₁.nextFd ∧ w₁.mount = w.mount ∧
      Ready dev top loc .faulty q s d sk dstFd w₁ ∧
      w₁.tick = w.tick + if subSrc < 0 ∧ subDst < 0 then 0 else 1 := by
  have hclosed : ∀ k : Nat, k ≠ sk ∧ (k : Int) ≠ dstFd →
      (kernel env w (.close k)).1.fs = w.fs ∧ w.nextFd ≤ (kernel env w (.close k)).1.nextFd ∧
      (kernel env w (.close k)).1.mount = w.mount ∧
      Ready dev top loc .faulty q s d sk dstFd (kernel env w (.close k)).1 ∧
      (kernel env w (.close k)).1.tick = w.tick + 1 := by
    intro k hk
    obtain ⟨hfs, hnext, hmount, _⟩ := kernel_close env w k
    exact ⟨hfs, Nat.le_of_eq hnext.symm, hmount, R.of_close env hk.1 hk.2, kernel_tick env w _⟩
  unfold endEntry closeOpen onlyIf
  by_cases hs : subSrc < 0
  · rw [if_neg (show ¬ subSrc ≥ 0 by omega)]
    by_cases hd : subDst < 0
    · rw [if_neg (show ¬ subDst ≥ 0 by omega), if_pos ⟨hs, hd⟩]
      exact ⟨w, rfl, rfl, Nat.le_refl _, rfl, R, rfl⟩
    · rw [if_pos (show subDst ≥ 0 by omega), if_neg (fun h => hd h.2)]
      obtain ⟨k, rfl⟩ := Int.eq_ofNat_of_zero_le (Int.not_lt.mp hd)
      exact ⟨_, rfl, hclosed k (hsrc k (.inr rfl))⟩
  · have hd : subDst < 0 := hstop.resolve_left hs
    rw [if_pos (show subSrc ≥ 0 by omega), if_neg (show ¬ subDst ≥ 0 by omega),
      if_neg (fun h => hs h.1)]
    obtain ⟨k, rfl⟩ := Int.eq_ofNat_of_zero_le (Int.not_lt.mp hs)
    exact ⟨_, rfl, hclosed k (hsrc k (.inl rfl))⟩

/-- What the fallback does when it does not recurse: the state before the `rmdir`, with
the replies of the two `openat` calls. -/
theorem mergeSubdir_run (env : Env) (R : Ready dev top loc .faulty q s d sk dstFd w) (n : Name)
    (recurse : Int → Int → Sys Unit) {a b c : World × Reply}
    (ha : a = kernel env w (.openat sk (.ofName n) dirFlags))
    (hb : b = kernel env a.1 (.mkdirat dstFd (.ofName n)))
    (hc : c = kernel env b.1 (.openat dstFd (.ofName n) dirFlags))
    (hstop : a.2.ret < 0 ∨ c.2.ret < 0) :
    ∃ w', (mergeSubdir recurse sk dstFd (.name n)).run (kernel env) w = (some (), w') ∧
      Kept w.fs w'.fs dev s d ∧
      ((w'.fs.view s).sub n = (w.fs.view s).sub n ∧ (w'.fs.view d).sub n = (w.fs.view d).sub n ↔
        (dstFd < 0 ∨ w.fs.view d [n] ≠ none ∨ env.choices.fault (w.tick + 1) ≠ none) ∧
          ((w.fs.view s).sub n ≠ View.one .dir ∨ env.choices.fault
            (w.tick + 3 + if a.2.ret < 0 ∧ c.2.ret < 0 then 0 else 1) ≠ none)) := by
  obtain ⟨Ra, hfsa, hmounta, hnexta, hreta⟩ := R.of_openat env sk n
  rw [← ha] at Ra hfsa hmounta hnexta hreta
  have hticka : a.1.tick = w.tick + 1 := by rw [ha, kernel_tick]
  have htickb : b.1.tick = w.tick + 2 := by rw [hb, kernel_tick, hticka]
  obtain ⟨hfdsb, hnextb, _, stagem, _⟩ := mkdir_step env Ra n
  rw [← hb] at hfdsb hnextb stagem
  have start : Stage dev s d n ((w.fs.view s).sub n) ((w.fs.view d).sub n) w a.1 :=
    (Stage.refl R.forest R.trees.srcDir R.trees.dstDir n).same hfsa hnexta hmounta
  -- the `mkdirat` changes the destination unless it does not go through
  obtain ⟨y, stageb, hy⟩ : ∃ y, Stage dev s d n ((w.fs.view s).sub n) y w b.1 ∧
      (y = (w.fs.view d).sub n ↔
        (dstFd < 0 ∨ w.fs.view d [n] ≠ none ∨ env.choices.fault (w.tick + 1) ≠ none)) := by
    have hmk := mkdir_exact env Ra n
    rw [← hb, hticka, hfsa] at hmk
    rcases hmk with ⟨hdst, hnone, hf, stage⟩ | ⟨hno, quiet⟩
    · refine ⟨View.one .dir, start.trans stage, ?_⟩
      constructor
      · intro hsame
        have := congrFun hsame []
        rw [View.sub_apply, hnone] at this
        cases this
      · rintro (h | h | h)
        · omega
        · exact absurd hnone h
        · exact absurd hf h
    · exact ⟨_, start.same quiet.fs (Nat.le_of_eq quiet.nextFd.symm) quiet.mount,
        fun _ => hno, fun _ => rfl⟩
  have Rb : Ready dev top loc .faulty q s d sk dstFd b.1 :=
    Ra.of_kept stagem.kept stagem.mount (fun k _ => by rw [hfdsb])
      (by rw [hnextb, hfdsb]; exact Ra.bound)
  obtain ⟨Rc, hfsc, hmountc, hnextc, hretc⟩ := Rb.of_openat env dstFd n
  rw [← hc] at Rc hfsc hmountc hnextc hretc
  have htickc : c.1.tick = w.tick + 3 := by rw [hc, kernel_tick, htickb]
  have hsub : ∀ k : Nat, (k : Int) = a.2.ret ∨ (k : Int) = c.2.ret → k ≠ sk ∧ (k : Int) ≠ dstFd := by
    intro k hk
    have hle : w.nextFd ≤ k := by omega
    have hlt := R.src_lt
    refine ⟨by omega, fun hdst => ?_⟩
    cases R.dst with
    | absent _ hneg _ => omega
    | @opened j born seen hfd =>
        obtain rfl : k = j := Int.natCast_inj.mp hdst
        rw [R.bound k hle] at hfd
        cases hfd
  obtain ⟨w₁, hrun, hfs₁, hnext₁, hmount₁, R₁, htick₁⟩ := endEntry_run env Rc n hstop hsub
  have stage₁ : Stage dev s d n ((w.fs.view s).sub n) y w w₁ :=
    (stageb.same hfsc hnextc hmountc).same hfs₁ hnext₁ hmount₁
  have hrmdir := rmdir_exact env R₁ n
  rw [stage₁.src_sub, stage₁.dst_sub, htick₁, htickc] at hrmdir
  generalize hw' : (kernel env w₁ (.unlinkat sk (.ofName n) true)).1 = w' at hrun hrmdir
  have hnot : ¬ (a.2.ret ≥ 0 ∧ c.2.ret ≥ 0) := by omega
  have hrun' : (mergeSubdir recurse sk dstFd (.name n)).run (kernel env) w = (some (), w') := by
    rw [ha] at hb
    rw [hb] at hc
    change (onlyIf ((kernel env w (.openat sk (.ofName n) dirFlags)).2.ret ≥ 0 ∧ _ ≥ 0) _ >>= fun _ =>
      endEntry sk n _ _).run (kernel env) _ = _
    rw [← hc, ← ha, onlyIf, if_neg hnot]
    exact hrun
  rcases hrmdir with ⟨hone, hf, stage⟩ | ⟨hno, quiet⟩
  · have stage' := stage₁.trans stage
    refine ⟨w', hrun', stage'.kept, ?_⟩
    rw [stage'.src_sub]
    constructor
    · rintro ⟨hempty, _⟩
      rw [hone] at hempty
      cases congrFun hempty []
    · rintro ⟨_, hne | hfault⟩
      · exact absurd hone hne
      · exact absurd hf hfault
  · have stage' := stage₁.same quiet.fs (Nat.le_of_eq quiet.nextFd.symm) quiet.mount
    refine ⟨w', hrun', stage'.kept, ?_⟩
    rw [stage'.src_sub, stage'.dst_sub, hy]
    constructor
    · exact fun h => ⟨h.2, hno⟩
    · exact fun h => ⟨rfl, h.1⟩

end Exact

section Calls

variable {env : Env} {w : World} {out : Int} {sk : Nat} {dstFd : Int} {indent : String} {n : Name}

/-- The world in which the `renameat` of an entry is tried. -/
def beforeRename (env : Env) (w : World) (out : Int) (indent : String) (n : Name) : World :=
  (kernel env (kernel env (kernel env w (.puts out (.lit indent))).1
    (.puts out (.lit "  Processing: "))).1 (.puts out (.name (.name n)))).1

theorem beforeRename_quiet (env : Env) (w : World) (out : Int) (indent : String) (n : Name) :
    Quiet w (beforeRename env w out indent n) ∧
      (beforeRename env w out indent n).tick = w.tick + 3 := by
  refine ⟨((kernel_puts env w _ _).trans (kernel_puts env _ _ _)).trans (kernel_puts env _ _ _), ?_⟩
  rw [beforeRename, kernel_tick, kernel_tick, kernel_tick]

theorem failed_cons {op op' : Syscall} {r : Reply} {es : List ((_ : Syscall) × Reply)} :
    Failed (⟨op', r⟩ :: es) op ↔ (op' = op ∧ r.ret < 0) ∨ Failed es op := by
  constructor
  · rintro ⟨r', hmem, hneg⟩
    rcases List.mem_cons.mp hmem with heq | hmem
    · cases heq
      exact .inl ⟨rfl, hneg⟩
    · exact .inr ⟨r', hmem, hneg⟩
  · rintro (⟨rfl, hneg⟩ | ⟨r', hmem, hneg⟩)
    · exact ⟨r, List.mem_cons_self, hneg⟩
    · exact ⟨r', List.mem_cons_of_mem _ hmem, hneg⟩

theorem not_failed_of_issues {p : Sys Unit} {P : Syscall → Prop} {op : Syscall} (hp : p.Issues P)
    (hop : ¬ P op) (env : Env) (w : World) : ¬ Failed (p.events (kernel env) w) op := by
  rintro ⟨r, hmem, _⟩
  exact hop (hp.events (kernel env) w _ hmem)

/-- A failed call of the iteration that is no text. -/
theorem failed_ownCalls {op : Syscall} (hop : ∀ fd t, .puts fd t ≠ op)
    {r : World × Reply} (hr : r = kernel env (beforeRename env w out indent n)
      (.renameat sk (.ofName n) dstFd (.ofName n))) :
    Failed (ownCalls env w out sk dstFd indent n) op ↔
      (.renameat sk (.ofName n) dstFd (.ofName n) = op ∧ r.2.ret < 0) ∨
      Failed ((if r.2.ret = 0 then print out (.lit " -> [MOVED]\n") else do
        print out (.lit " -> [MERGING SUBDIR]\n")
        mergeSubdir (fun _ _ => .spent) sk dstFd (.name n)).events (kernel env) r.1) op := by
  have skip : ∀ {fd t r es}, Failed (⟨.puts fd t, r⟩ :: es) op ↔ Failed es op := by
    intro fd t r es
    rw [failed_cons]
    simp [hop fd t]
  unfold ownCalls mergeEntry
  rw [if_pos (name_not_special n), hr]
  exact skip.trans (skip.trans (skip.trans failed_cons))

theorem refused_of_failed (h : Failed (ownCalls env w out sk dstFd indent n)
    (.renameat sk (.ofName n) dstFd (.ofName n))) {r : World × Reply}
    (hr : r = kernel env (beforeRename env w out indent n)
      (.renameat sk (.ofName n) dstFd (.ofName n))) : r.2.ret ≠ 0 := by
  rcases (failed_ownCalls (by simp) hr).mp h with ⟨_, h⟩ | h
  · omega
  · intro hzero
    rw [if_pos hzero] at h
    have hprint : (print out (.lit " -> [MOVED]\n")).Issues fun op => ∃ t, op = .puts out t :=
      ⟨⟨_, rfl⟩, fun _ => trivial⟩
    exact not_failed_of_issues hprint (by simp) env r.1 h

/-- Which of the two `openat` calls fail. -/
theorem failed_opens {r a b c : World × Reply} (hr : r = kernel env (beforeRename env w out indent n)
      (.renameat sk (.ofName n) dstFd (.ofName n))) (hret : r.2.ret ≠ 0)
    (ha : a = kernel env (kernel env r.1 (.puts out (.lit " -> [MERGING SUBDIR]\n"))).1
      (.openat sk (.ofName n) dirFlags))
    (hb : b = kernel env a.1 (.mkdirat dstFd (.ofName n)))
    (hc : c = kernel env b.1 (.openat dstFd (.ofName n) dirFlags)) (hne : (sk : Int) ≠ dstFd) :
    (Failed (ownCalls env w out sk dstFd indent n) (.openat sk (.ofName n) dirFlags) ↔
      a.2.ret < 0) ∧
    (Failed (ownCalls env w out sk dstFd indent n) (.openat dstFd (.ofName n) dirFlags) ↔
      c.2.ret < 0) := by
  have hend : ∀ fd path, ¬ Failed ((onlyIf (a.2.ret ≥ 0 ∧ c.2.ret ≥ 0) .spent >>= fun _ =>
      endEntry sk n a.2.ret c.2.ret).events (kernel env) c.1) (.openat fd path dirFlags) := by
    intro fd path
    refine not_failed_of_issues (Prog.Issues.bind ?_ fun _ => endEntry_issues sk n _ _)
      (by simp) env c.1
    unfold onlyIf
    split <;> trivial
  have key : ∀ fd path, Failed ((do
      print out (.lit " -> [MERGING SUBDIR]\n")
      mergeSubdir (fun _ _ => .spent) sk dstFd (.name n)).events (kernel env) r.1)
        (.openat fd path dirFlags) ↔
      (Syscall.openat sk (.ofName n) dirFlags = .openat fd path dirFlags ∧ a.2.ret < 0) ∨
      (Syscall.openat dstFd (.ofName n) dirFlags = .openat fd path dirFlags ∧
        c.2.ret < 0) := by
    intro fd path
    subst hc hb ha
    refine failed_cons.trans ((or_iff_right (by simp)).trans ?_)
    refine failed_cons.trans (or_congr_right ?_)
    refine failed_cons.trans ((or_iff_right (by simp)).trans ?_)
    exact failed_cons.trans (or_iff_left (hend fd path))
  rw [failed_ownCalls (by simp) hr, failed_ownCalls (by simp) hr, if_neg hret, key, key]
  constructor
  · simp [hne.symm]
  · simp [hne]

end Calls

/-- An entry whose `renameat` fails and for which one of the two `openat` calls fails, so
that there is no recursion, keeps its subtrees in source and destination exactly if
neither the `mkdirat` nor the `rmdir` goes through. No file is written to in any case. -/
theorem mergeEntry_leftAlone_iff (env : Env) (dev : Nat) (S D : Ino) (w : World) (sk : Nat)
    (dstFd out : Int) (indent : String) (recurse : Int → Int → Sys Unit) (n : Name)
    (trees : Forest w.fs dev (pair S D)) (hS : w.fs.isDir S = true) (hD : w.fs.isDir D = true)
    (src : ∃ born seen, w.fds sk = some (.dir S born seen))
    (dst : (∃ k born seen, dstFd = (k : Nat) ∧ w.fds k = some (.dir D born seen)) ∨
      (dstFd < 0 ∧ dstFd ≠ AT_FDCWD))
    (bound : ∀ k, w.nextFd ≤ k → w.fds k = none)
    (mount : ∀ c t, w.mount = some (c, t) → c.dev ≠ dev)
    (refused : Failed (ownCalls env w out sk dstFd indent n)
      (.renameat sk (.ofName n) dstFd (.ofName n)))
    (stopped : Failed (ownCalls env w out sk dstFd indent n) (.openat sk (.ofName n) dirFlags) ∨
      Failed (ownCalls env w out sk dstFd indent n) (.openat dstFd (.ofName n) dirFlags)) :
    ∃ w', (mergeEntry out recurse sk dstFd indent (.name n)).run (kernel env) w = (some (), w') ∧
      ((w'.fs.view S).sub n = (w.fs.view S).sub n ∧ (w'.fs.view D).sub n = (w.fs.view D).sub n ↔
        Spared env w out sk dstFd indent n S D) ∧
      ∀ i, w.fs.node i ≠ none → w.fs.isDir i = false → w'.fs.node i = w.fs.node i := by
  have R : Ready dev (pair S D) (fun a => (a, [])) .faulty [] S D sk dstFd w :=
    { trees := ⟨trees, ⟨fun a => rfl, fun hab _ => hab⟩, hS, hD⟩
      src := src
      dst := by
        rcases dst with ⟨k, born, seen, rfl, hfd⟩ | ⟨hneg, hcwd⟩
        · exact .opened hfd
        · exact .absent rfl hneg hcwd
      bound := bound
      mount := mount }
  have hne : (sk : Int) ≠ dstFd := by
    obtain ⟨b, sn, hsrc⟩ := src
    rcases dst with ⟨k, b', sn', rfl, hfd⟩ | ⟨hneg, _⟩
    · intro h
      rw [← Int.natCast_inj.mp h, hsrc] at hfd
      cases hfd
      exact R.forest.roots_ne hS rfl
    · omega
  obtain ⟨quiet₃, htick₃⟩ := beforeRename_quiet env w out indent n
  generalize hr : kernel env (beforeRename env w out indent n)
    (.renameat sk (.ofName n) dstFd (.ofName n)) = r
  have hret := refused_of_failed refused hr.symm
  have quiet₄ : Quiet (beforeRename env w out indent n) r.1 := by
    rcases @rename_step _ env _ _ _ _ _ _ _ _ _ _ (R.of_quiet quiet₃)
        (Mode.faulty_holds env) n with
      ⟨hzero, _⟩ | ⟨_, quiet, _⟩
    · rw [hr] at hzero
      exact absurd hzero hret
    · rwa [hr] at quiet
  have htick₄ : r.1.tick = w.tick + 4 := by
    rw [← hr, kernel_tick, htick₃]
  have quiet₅ := (quiet₃.trans quiet₄).trans
    (kernel_puts env r.1 out (.lit " -> [MERGING SUBDIR]\n"))
  have htick₅ : (kernel env r.1 (.puts out (.lit " -> [MERGING SUBDIR]\n"))).1.tick =
      w.tick + 5 := by
    rw [kernel_tick, htick₄]
  obtain ⟨hsrc, hdst⟩ := failed_opens hr.symm hret rfl rfl rfl hne
  rw [hsrc, hdst] at stopped
  obtain ⟨w', hrun, kept, hiff⟩ := mergeSubdir_run env (R.of_quiet quiet₅) n recurse rfl rfl rfl
    stopped
  refine ⟨w', ?_, ?_, ?_⟩
  · unfold mergeEntry
    rw [if_pos (name_not_special n)]
    change (if (kernel env (beforeRename env w out indent n)
      (.renameat sk (.ofName n) dstFd (.ofName n))).2.ret = 0 then _ else do
        print out (.lit " -> [MERGING SUBDIR]\n")
        mergeSubdir recurse sk dstFd (.name n) : Sys Unit).run (kernel env)
      (kernel env (beforeRename env w out indent n)
        (.renameat sk (.ofName n) dstFd (.ofName n))).1 = _
    rw [hr, if_neg hret]
    exact hrun
  · rw [quiet₅.fs, htick₅] at hiff
    unfold Spared rmdirTick
    rw [hiff]
    simp only [hsrc, hdst]
    split
    · rfl
    · rfl
  · intro i hi hdir
    rw [quiet₅.fs] at kept
    exact kept.within.frame hi fun _ _ _ => hdir

section Sample

/-- A file in the source `1` and an empty destination `3`, both open. -/
def loneFile : World where
  fs := .ofList [(⟨1, 1⟩, .dir ⟨1, 1⟩ [(nLdLinux, ⟨1, 2⟩)]), (⟨1, 2⟩, .file [1]),
    (⟨1, 3⟩, .dir ⟨1, 3⟩ [])]
  mount := none
  fds k := if k = 0 then some (.dir ⟨1, 1⟩ [] []) else if k = 1 then some (.dir ⟨1, 3⟩ [] []) else none
  nextFd := 2
  log := []
  tick := 0

/-- Only the call at tick `3` fails, which is the `renameat`. -/
def renameFails : Env where
  abi := .arm64
  ramRoot := ⟨0, 0⟩
  diskRoot := ⟨1, 0⟩
  choices :=
    { fault := fun t => if t = 3 then some .EBUSY else none
      leak := fun _ => false
      order := fun _ => []
      chunk := fun _ => 1
      short := fun _ => none
      diskReady := fun _ => false
      direct := fun _ => true
      console := false }

/-- The file is not renamed; it is opened, but not the directory that was made for it. -/
private theorem loneFile_failed :
    Failed (ownCalls renameFails loneFile 7 0 (1 : Nat) "" nLdLinux)
        (.renameat (0 : Nat) (.ofName nLdLinux) (1 : Nat) (.ofName nLdLinux)) ∧
      Failed (ownCalls renameFails loneFile 7 0 (1 : Nat) "" nLdLinux)
        (.openat (1 : Nat) (.ofName nLdLinux) dirFlags) ∧
      loneFile.fs.Listed 3 1 (pair ⟨1, 1⟩ ⟨1, 3⟩) ∧ loneFile.fs.isDir ⟨1, 1⟩ = true ∧
      loneFile.fs.isDir ⟨1, 3⟩ = true :=
  ⟨(failed_ownCalls (by simp) rfl).mpr (.inl ⟨rfl, by decide +kernel⟩),
    (failed_opens rfl (by decide +kernel) rfl rfl rfl (by decide)).2.mpr (by decide +kernel),
    by decide +kernel⟩

private theorem loneFile_bound (k : Nat) (hk : 2 ≤ k) : loneFile.fds k = none := by
  have h0 : k ≠ 0 := by omega
  have h1 : k ≠ 1 := by omega
  simp [loneFile, h0, h1]

/-- The theorem applies to the file that could not be renamed: the condition fails there, and so
does what it stands for. -/
theorem mergeEntry_leftAlone_iff_loneFile :
    ∃ w', (mergeEntry 7 (fun _ _ => .spent) (0 : Nat) (1 : Nat) "" (.name nLdLinux)).run
        (kernel renameFails) loneFile = (some (), w') ∧
      ((w'.fs.view ⟨1, 1⟩).sub nLdLinux = (loneFile.fs.view ⟨1, 1⟩).sub nLdLinux ∧
          (w'.fs.view ⟨1, 3⟩).sub nLdLinux = (loneFile.fs.view ⟨1, 3⟩).sub nLdLinux ↔
        Spared renameFails loneFile 7 0 (1 : Nat) "" nLdLinux ⟨1, 1⟩ ⟨1, 3⟩) ∧
      ∀ i, loneFile.fs.node i ≠ none → loneFile.fs.isDir i = false →
        w'.fs.node i = loneFile.fs.node i := by
  obtain ⟨hrefused, hstopped, hlisted, hsrc, hdst⟩ := loneFile_failed
  exact mergeEntry_leftAlone_iff renameFails 1 ⟨1, 1⟩ ⟨1, 3⟩ loneFile 0 (1 : Nat) 7 ""
    (fun _ _ => .spent) nLdLinux (.of_places hlisted) hsrc hdst ⟨_, _, rfl⟩
    (.inl ⟨1, _, _, rfl, rfl⟩) loneFile_bound (fun c t h => by cases h) hrefused (.inr hstopped)

/-- A file that could not be renamed leaves an empty directory of its name in the
destination, so that it can never be moved there any more. -/
theorem mergeEntry_file_refused :
    Failed (ownCalls renameFails loneFile 7 0 (1 : Nat) "" nLdLinux)
        (.renameat (0 : Nat) (.ofName nLdLinux) (1 : Nat) (.ofName nLdLinux)) ∧
      Failed (ownCalls renameFails loneFile 7 0 (1 : Nat) "" nLdLinux)
        (.openat (1 : Nat) (.ofName nLdLinux) dirFlags) ∧
      ∃ w', (mergeEntry 7 (fun _ _ => .spent) (0 : Nat) (1 : Nat) "" (.name nLdLinux)).run
          (kernel renameFails) loneFile = (some (), w') ∧
        loneFile.fs.view ⟨1, 3⟩ [nLdLinux] = none ∧
        w'.fs.view ⟨1, 3⟩ [nLdLinux] = some .dir :=
  ⟨loneFile_failed.1, loneFile_failed.2.1,
    ((mergeEntry 7 (fun _ _ => .spent) (0 : Nat) (1 : Nat) "" (.name nLdLinux)).run
      (kernel renameFails) loneFile).2, Prod.ext (by decide +kernel) rfl, by decide +kernel,
    by decide +kernel⟩

end Sample

end Hub11.Recovery
