import Hub11.Recovery.Install

/-!
The links and linkers of steps 6 and 7 as a list of places.

At every place a new file or link is put unless something is in the way (`Lays`). In the
end every place is as it should be (`Lays.met`), and doing it all again changes nothing
but the numbers of the inodes (`Alike`).
-/

namespace Hub11.Recovery

open Hub11.Effect Hub11.Posix

/-- A place where a link or a file is put, by `unlinkat`, `rmdir` and `symlinkat`, by
`copy_file`, or by `symlinkat` alone. -/
inductive Spot where
  | link (n : Name) (target : Path)
  | copy (p : List Name) (file : Option Bytes)
  | fallback (p : List Name) (target : Path)

namespace Spot

def path : Spot → List Name
  | link n _ => [n]
  | copy p _ => p
  | fallback p _ => p

def node : Spot → Node
  | link _ target => .symlink target
  | copy _ file => .file (file.getD [])
  | fallback _ target => .symlink target

/-- Nothing is put there. -/
def Blocked (V : View) : Spot → Prop
  | link n _ => V.Full [n]
  | copy p file => file = none ∨ V p = some .dir
  | fallback p _ => V p ≠ none

/-- What would be put there is there, or nothing is put there. A boot of a disk on which every place
is met changes nothing but inode numbers. -/
def Met (fs : FS) (V : View) (s : Spot) : Prop :=
  s.Blocked V ∨ ∃ i, V s.path = some (.leaf i) ∧ fs.node i = some s.node

def isFallback : Spot → Bool
  | fallback _ _ => true
  | _ => false

/-- A place and the one handled after it are apart, or the second is left alone if the
first is not empty. -/
def Follows (a b : List Name × Bool) : Prop :=
  (¬ a.1 <+: b.1 ∧ ¬ b.1 <+: a.1) ∨ (a.1 = b.1 ∧ b.2 = true)

/-- Putting `s'` in its place does not undo `s`. -/
def Compatible (s s' : Spot) : Prop := Follows (s.path, s.isFallback) (s'.path, s'.isFallback)

theorem Met.lay {fs : FS} {V : View} {s s' : Spot} (h : s.Met fs V) (hcompat : s.Compatible s')
    (hfree : ¬ s'.Blocked V) (k : Ino) : s.Met fs (V.put s'.path (View.one (.leaf k))) := by
  rcases hcompat with ⟨hapart, hapart'⟩ | ⟨hpath, hfallback⟩
  · have hroot : V.put s'.path (View.one (.leaf k)) s.path = V s.path :=
      V.put_of_not_below _ hapart'
    rcases h with hblocked | ⟨i, hi, hnode⟩
    · left
      cases s with
      | link n t =>
          have hbelow : (V.put s'.path (View.one (.leaf k))).below [n] = V.below [n] :=
            V.below_put_of_apart hapart' hapart _
          exact ⟨hroot.trans hblocked.1, hbelow ▸ hblocked.2⟩
      | copy p file => exact hblocked.imp_right hroot.trans
      | fallback p t => exact fun hnone => hblocked (hroot.symm.trans hnone)
    · exact .inr ⟨i, hroot.trans hi, hnode⟩
  · -- there was nothing, so only a copy that is not made can have been met
    have hnone : V s.path = none := by
      rw [show s.path = s'.path from hpath]
      cases s' with
      | fallback p t => exact not_not.mp hfree
      | link n t => cases hfallback
      | copy p file => cases hfallback
    rcases h with hblocked | ⟨i, hi, _⟩
    · cases s with
      | link n t => exact absurd (hnone.symm.trans hblocked.1) (by simp)
      | copy p file =>
          rcases hblocked with hfile | hdir
          · exact .inl (.inl hfile)
          · exact absurd (hnone.symm.trans hdir) (by simp)
      | fallback p t => exact absurd hnone hblocked
    · exact absurd (hnone.symm.trans hi) (by simp)

end Spot

/-- The places are handled one after the other: at each of them something is in the way, or a new
file or link is put there. -/
inductive Lays (fs : FS) : List Spot → View → View → Prop where
  | nil (V : View) : Lays fs [] V V
  | kept {s : Spot} {ss : List Spot} {V U : View} (h : s.Blocked V) (rest : Lays fs ss V U) :
      Lays fs (s :: ss) V U
  | laid {s : Spot} {ss : List Spot} {V U : View} {k : Ino} (h : ¬ s.Blocked V) (closed : V.Closed)
      (hnode : fs.node k = some s.node) (rest : Lays fs ss (V.put s.path (View.one (.leaf k))) U) :
      Lays fs (s :: ss) V U

namespace Lays

variable {fs : FS} {ss : List Spot} {V U : View}

theorem of_not_below (h : Lays fs ss V U) {r : List Name}
    (hr : ∀ p ∈ ss.map Spot.path, ¬ p <+: r) : U r = V r := by
  induction h with
  | nil V => rfl
  | kept _ _ ih => exact ih fun p hp => hr p (List.mem_cons_of_mem _ hp)
  | laid _ _ _ _ ih =>
      rw [ih fun p hp => hr p (List.mem_cons_of_mem _ hp)]
      exact View.put_of_not_below _ _ (hr _ List.mem_cons_self)

/-- Below a name that no place starts with, nothing changes. -/
theorem below_eq (h : Lays fs ss V U) {n : Name}
    (hn : ∀ p ∈ ss.map Spot.path, p ≠ [] ∧ p.head? ≠ some n) : U.below [n] = V.below [n] := by
  funext q
  apply h.of_not_below
  intro p hp
  obtain ⟨hne, hhead⟩ := hn p hp
  cases p with
  | nil => exact absurd rfl hne
  | cons m t => exact not_below_of_ne (by simpa using hhead) t _

theorem met_of_met (h : Lays fs ss V U) {s : Spot} (hmet : s.Met fs V)
    (hcompat : ∀ s' ∈ ss, s.Compatible s') : s.Met fs U := by
  induction h with
  | nil V => exact hmet
  | kept _ _ ih => exact ih hmet fun s' hs' => hcompat s' (List.mem_cons_of_mem _ hs')
  | laid hfree _ _ _ ih =>
      apply ih
      · exact hmet.lay (hcompat _ List.mem_cons_self) hfree _
      · exact fun s' hs' => hcompat s' (List.mem_cons_of_mem _ hs')

/-- In the end every place is as it should be. -/
theorem met (h : Lays fs ss V U) (hcompat : ss.Pairwise Spot.Compatible) :
    ∀ s ∈ ss, s.Met fs U := by
  induction h with
  | nil V => exact fun s hs => by cases hs
  | @kept s ss V U hblocked rest ih =>
      rw [List.pairwise_cons] at hcompat
      intro s' hs'
      rcases List.mem_cons.mp hs' with rfl | hs'
      · exact rest.met_of_met (.inl hblocked) hcompat.1
      · exact ih hcompat.2 s' hs'
  | @laid s ss V U k _ _ hnode rest ih =>
      rw [List.pairwise_cons] at hcompat
      intro s' hs'
      rcases List.mem_cons.mp hs' with rfl | hs'
      · refine rest.met_of_met (.inr ⟨k, ?_, hnode⟩) hcompat.1
        rw [View.put_self, View.one_nil]
      · exact ih hcompat.2 s' hs'

theorem laid_of_free {s : Spot} (h : Lays fs (s :: ss) V U) (hfree : ¬ s.Blocked V) :
    ∃ k, fs.node k = some s.node ∧ Lays fs ss (V.put s.path (View.one (.leaf k))) U := by
  cases h with
  | kept hblocked _ => exact absurd hblocked hfree
  | laid _ _ hnode rest => exact ⟨_, hnode, rest⟩

theorem kept_of_blocked {s : Spot} (h : Lays fs (s :: ss) V U) (hblocked : s.Blocked V) :
    Lays fs ss V U := by
  cases h with
  | kept _ rest => exact rest
  | laid hfree _ _ _ => exact absurd hblocked hfree

theorem trans {ss' : List Spot} {W : View} (h : Lays fs ss V W) (h' : Lays fs ss' W U) :
    Lays fs (ss ++ ss') V U := by
  induction h with
  | nil V => exact h'
  | kept hblocked _ ih => exact .kept hblocked (ih h')
  | laid hfree closed hnode _ ih => exact .laid hfree closed hnode (ih h')

theorem of_leavesKept (h : Lays fs ss V U) {fs' : FS} (hkept : LeavesKept fs fs') :
    Lays fs' ss V U := by
  induction h with
  | nil V => exact .nil V
  | kept hblocked _ ih => exact .kept hblocked ih
  | @laid s ss V U k hfree closed hnode _ ih =>
      refine .laid hfree closed ?_ ih
      rw [hkept k (by simp [hnode]), hnode]
      cases s <;> simp [FS.isDir, FS.entries, hnode, Spot.node]

end Lays

/-- The same up to the numbers of files and links. Two runs allocate different inodes, so this is as
equal as two disks get. -/
def Alike (fs fs' : FS) (V V' : View) : Prop :=
  ∀ p, (V p = none ∧ V' p = none) ∨ (V p = some .dir ∧ V' p = some .dir) ∨
    ∃ i j, V p = some (.leaf i) ∧ V' p = some (.leaf j) ∧ fs.node i = fs'.node j

theorem alike_of_node_eq {fs fs' : FS} {V : View}
    (h : ∀ p i, V p = some (.leaf i) → fs.node i = fs'.node i) : Alike fs fs' V V := by
  intro p
  cases hp : V p with
  | none => exact .inl ⟨rfl, rfl⟩
  | some o =>
      cases o with
      | dir => exact .inr (.inl ⟨rfl, rfl⟩)
      | leaf i => exact .inr (.inr ⟨i, i, rfl, rfl, h p i hp⟩)

namespace Alike

variable {fs fs' fs'' : FS} {V V' V'' : View}

theorem trans (h : Alike fs fs' V V') (h' : Alike fs' fs'' V' V'') : Alike fs fs'' V V'' := by
  intro p
  rcases h p with ⟨hp, hp'⟩ | ⟨hp, hp'⟩ | ⟨i, j, hi, hj, hnode⟩
  · rcases h' p with ⟨_, hq⟩ | ⟨hq, _⟩ | ⟨_, _, hq, _⟩
    · exact .inl ⟨hp, hq⟩
    · simp [hp'] at hq
    · simp [hp'] at hq
  · rcases h' p with ⟨hq, _⟩ | ⟨_, hq⟩ | ⟨_, _, hq, _⟩
    · simp [hp'] at hq
    · exact .inr (.inl ⟨hp, hq⟩)
    · simp [hp'] at hq
  · rcases h' p with ⟨hq, _⟩ | ⟨hq, _⟩ | ⟨j', k, hj', hk, hnode'⟩
    · simp [hj] at hq
    · simp [hj] at hq
    · cases hj.symm.trans hj'
      exact .inr (.inr ⟨i, k, hi, hk, hnode.trans hnode'⟩)

theorem symm (h : Alike fs fs' V V') : Alike fs' fs V' V := by
  intro p
  rcases h p with ⟨hp, hp'⟩ | ⟨hp, hp'⟩ | ⟨i, j, hi, hj, hnode⟩
  · exact .inl ⟨hp', hp⟩
  · exact .inr (.inl ⟨hp', hp⟩)
  · exact .inr (.inr ⟨j, i, hj, hi, hnode.symm⟩)

theorem eq_none (h : Alike fs fs' V V') {p : List Name} (hp : V' p = none) : V p = none := by
  rcases h p with ⟨hp', _⟩ | ⟨_, hp'⟩ | ⟨_, _, _, hp', _⟩
  · exact hp'
  · simp [hp] at hp'
  · simp [hp] at hp'

theorem eq_dir (h : Alike fs fs' V V') {p : List Name} (hp : V p = some .dir) :
    V' p = some .dir := by
  rcases h p with ⟨hp', _⟩ | ⟨_, hp'⟩ | ⟨_, _, hp', _⟩
  · simp [hp] at hp'
  · exact hp'
  · simp [hp] at hp'

theorem blocked (h : Alike fs fs' V V') {s : Spot} (hs : s.Blocked V) : s.Blocked V' := by
  cases s with
  | link n t =>
      refine ⟨h.eq_dir hs.1, fun hone => hs.2 ?_⟩
      funext q
      cases q with
      | nil => exact hs.1
      | cons m q => exact h.eq_none (congrFun hone (m :: q))
  | copy p file => exact hs.imp_right h.eq_dir
  | fallback p t => exact fun hnone => hs (h.eq_none hnone)

theorem met (h : Alike fs fs V V') {s : Spot} (hs : s.Met fs V) : s.Met fs V' := by
  rcases hs with hblocked | ⟨i, hi, hnode⟩
  · exact .inl (h.blocked hblocked)
  · rcases h s.path with ⟨hp, _⟩ | ⟨hp, _⟩ | ⟨i', j, hi', hj, hnode'⟩
    · simp [hi] at hp
    · simp [hi] at hp
    · cases hi.symm.trans hi'
      exact .inr ⟨j, hj, hnode'.symm.trans hnode⟩

theorem put (h : Alike fs fs' V V') (p : List Name) {k k' : Ino} (hnode : fs.node k = fs'.node k') :
    Alike fs fs' (V.put p (View.one (.leaf k))) (V'.put p (View.one (.leaf k'))) := by
  intro r
  by_cases hr : p <+: r
  · obtain ⟨t, rfl⟩ := hr
    rw [View.put_append, View.put_append]
    cases t with
    | nil => exact .inr (.inr ⟨k, k', rfl, rfl, hnode⟩)
    | cons n t => exact .inl ⟨rfl, rfl⟩
  · rw [V.put_of_not_below _ hr, V'.put_of_not_below _ hr]
    exact h r

end Alike

/-- Where every place is met already, only the inodes change. -/
theorem Lays.alike {fs : FS} {ss : List Spot} {V U : View} (h : Lays fs ss V U)
    (hmet : ∀ s ∈ ss, s.Met fs V) : Alike fs fs V U := by
  induction h with
  | nil V => exact alike_of_node_eq fun _ _ _ => rfl
  | kept _ _ ih => exact ih fun s hs => hmet s (List.mem_cons_of_mem _ hs)
  | @laid s ss V U k hfree closed hnode _ ih =>
      have hsame : Alike fs fs V (V.put s.path (View.one (.leaf k))) := by
        rcases hmet s List.mem_cons_self with hblocked | ⟨i, hi, hold⟩
        · exact absurd hblocked hfree
        -- the old file or link put in its own place
        have hold' : V.put s.path (View.one (.leaf i)) = V := by
          nth_rewrite 2 [← V.put_below s.path]
          congr 1
          funext t
          cases t with
          | nil => simp [View.below, hi]
          | cons n t => exact (closed s.path (n :: t) (by simp [hi]) (by simp)).symm
        have hput := (alike_of_node_eq (V := V) fun _ _ _ => rfl).put s.path (hold.trans hnode.symm)
        rwa [hold'] at hput
      exact hsame.trans (ih fun s' hs' => hsame.met (hmet s' (List.mem_cons_of_mem _ hs')))

/-- Steps 6 and 7, with what the ram disk holds under the names of the two linkers. -/
def spots (ld ld231 : Option Bytes) : List Spot :=
  [.link nLib (relPath [nUsr, nLib]), .link nLib64 (relPath [nUsr, nLib64]), .copy pArchLd ld,
    .copy pArchLd231 ld231, .copy pLd ld, .fallback pArchLd231 (relPath [nLdLinux]),
    .fallback pLd (relPath [nArch, nLdLinux])]

def spotPaths : List (List Name) :=
  [[nLib], [nLib64], pArchLd, pArchLd231, pLd, pArchLd231, pLd]

theorem spots_compatible (ld ld231 : Option Bytes) :
    (spots ld ld231).Pairwise Spot.Compatible := by
  have hpairs : ((spots ld ld231).map fun s => (s.path, s.isFallback)).Pairwise Spot.Follows := by
    change (spotPaths.zip [false, false, false, false, false, true, true]).Pairwise Spot.Follows
    unfold Spot.Follows
    decide
  rw [List.pairwise_map] at hpairs
  exact hpairs

/-! ### Steps 6 and 7 -/

section Run

variable {env : Env} {w : World} {V : View} {I : World → Syscall → Prop} {ld ld231 : Option Bytes}
  (hno : env.choices.NoFaults) (R : Rootfs env V w)
include hno R

theorem restoreLink_lays (n : Name) (target : Path) :
    Prog.Ensures (kernel env) I (restoreLink n target) w fun _ w' =>
      ∃ V', Leads env w V' w' ∧ Lays w'.fs [.link n target] V V' := by
  apply (restoreLink_ensures hno R n target).mono
  rintro _ w' ⟨hfull, hfree⟩
  by_cases h : V.Full [n]
  · exact ⟨V, hfull h, .kept h (.nil V)⟩
  · obtain ⟨i, l, _, hnode⟩ := hfree h
    exact ⟨_, l, .laid h R.closed_view hnode (.nil _)⟩

theorem copyFile_lays (hwhole : env.choices.NoShort) {p : List Name} (hp : V p = some .dir)
    (n : Name) {src : Name} {file : Option Bytes} (ram : RamFile env w src file) (out : Int)
    (srcText dstText : String) :
    Prog.Eventually (kernel env) I (fun fuel => copyFile out fuel (absPath [src])
      (mntPath (p ++ [n])) srcText dstText) w fun _ w' =>
      ∃ V', Leads env w V' w' ∧ Lays w'.fs [.copy (p ++ [n]) file] V V' := by
  apply (copyFile_eventually hno hwhole R hp n ram out srcText dstText).mono
  rintro _ w' ⟨V', l, placed⟩
  refine ⟨V', l, ?_⟩
  generalize hx : file.map Node.file = x at placed
  cases placed with
  | kept h => exact .kept (h.imp_left fun hnone => by simpa [hnone] using hx) (.nil V)
  | fresh hdir _ hnode =>
      obtain ⟨data, rfl, rfl⟩ := Option.map_eq_some_iff.mp hx
      exact .laid (by simp [Spot.Blocked, hdir]) R.closed_view hnode (.nil _)

theorem symlinkat_lays {p : List Name} (hp : V p = some .dir) (n : Name) (target : Path) :
    ∃ V', Leads env w V' (kernel env w (.symlinkat target AT_FDCWD (mntPath (p ++ [n])))).1 ∧
      Lays (kernel env w (.symlinkat target AT_FDCWD (mntPath (p ++ [n])))).1.fs
        [.fallback (p ++ [n]) target] V V' := by
  obtain ⟨hthere, hfree⟩ := R.symlinkat hno hp n target
  by_cases h : V (p ++ [n]) = none
  · obtain ⟨i, l, _, hnode⟩ := hfree h
    exact ⟨_, l, .laid (not_not.mpr h) R.closed_view hnode (.nil _)⟩
  · exact ⟨V, R.quiet (hthere h), .kept h (.nil V)⟩

theorem restoreSymlinks_lays (out : Int) :
    Prog.Ensures (kernel env) I (restoreSymlinks out) w fun _ w' =>
      ∃ V', Leads env w V' w' ∧ Lays w'.fs [.link nLib (relPath [nUsr, nLib]),
        .link nLib64 (relPath [nUsr, nLib64])] V V' := by
  apply ensures_print
  intro w₁ quiet
  have l₁ := R.quiet quiet
  apply Prog.Ensures.bind
  apply (restoreLink_lays hno l₁.rootfs nLib (relPath [nUsr, nLib])).mono
  rintro _ w₂ ⟨V₂, l₂, lays₂⟩
  apply (restoreLink_lays hno l₂.rootfs nLib64 (relPath [nUsr, nLib64])).mono
  rintro _ w₃ ⟨V₃, l₃, lays₃⟩
  exact ⟨V₃, (l₁.trans l₂).trans l₃, (lays₂.of_leavesKept l₃.since.leaves).trans lays₃⟩

theorem installLinkers_lays (hwhole : env.choices.NoShort) (hlib : V [nUsr, nLib] = some .dir)
    (harch : V pArch = some .dir) (ram : RamFile env w nLdLinux ld)
    (ram231 : RamFile env w nLd231 ld231) (out : Int) :
    Prog.Eventually (kernel env) I (fun fuel => installLinkers out fuel) w fun _ w' =>
      ∃ V', Leads env w V' w' ∧ Lays w'.fs ((spots ld ld231).drop 2) V V' := by
  apply eventually_print
  intro w₁ quiet
  have l₁ := R.quiet quiet
  apply Prog.Eventually.bind (copyFile_grows out _ _ _ _)
  apply (copyFile_lays hno l₁.rootfs hwhole harch nLdLinux (ram.since l₁.since) out _ _).mono
  rintro _ w₂ ⟨V₂, l₂, s₂⟩
  have l₂ := l₁.trans l₂
  apply Prog.Eventually.bind (copyFile_grows out _ _ _ _)
  have harch₂ : V₂ pArch = some .dir :=
    (s₂.of_not_below (show ∀ p ∈ [pArchLd], ¬ p <+: pArch by decide)).trans harch
  apply (copyFile_lays hno l₂.rootfs hwhole harch₂ nLd231 (ram231.since l₂.since) out _ _).mono
  rintro _ w₃ ⟨V₃, l₃, s₃⟩
  have s₃ := (s₂.of_leavesKept l₃.since.leaves).trans s₃
  have l₃ := l₂.trans l₃
  have hlib₃ : V₃ [nUsr, nLib] = some .dir :=
    (s₃.of_not_below (show ∀ p ∈ [pArchLd, pArchLd231], ¬ p <+: [nUsr, nLib] by decide)).trans hlib
  apply Prog.Eventually.bind (copyFile_grows out _ _ _ _)
  apply (copyFile_lays hno l₃.rootfs hwhole hlib₃ nLdLinux (ram.since l₃.since) out _ _).mono
  rintro _ w₄ ⟨V₄, l₄, s₄⟩
  have s₄ := (s₃.of_leavesKept l₄.since.leaves).trans s₄
  have l₄ := l₃.trans l₄
  have harch₄ : V₄ pArch = some .dir :=
    (s₄.of_not_below (show ∀ p ∈ [pArchLd, pArchLd231, pLd], ¬ p <+: pArch by decide)).trans harch
  obtain ⟨V₅, l₅, s₅⟩ := symlinkat_lays hno l₄.rootfs harch₄ nLd231 (relPath [nLdLinux])
  have s₅ := (s₄.of_leavesKept l₅.since.leaves).trans s₅
  have hlib₅ : V₅ [nUsr, nLib] = some .dir :=
    (s₅.of_not_below (show ∀ p ∈ [pArchLd, pArchLd231, pLd, pArchLd231], ¬ p <+: [nUsr, nLib]
      by decide)).trans hlib
  obtain ⟨V₆, l₆, s₆⟩ := symlinkat_lays hno l₅.rootfs hlib₅ nLdLinux (relPath [nArch, nLdLinux])
  have s₆ := (s₅.of_leavesKept l₆.since.leaves).trans s₆
  apply Prog.eventually_of_ensures
  apply Prog.ensures_call
  intro _
  apply Prog.ensures_call
  intro _
  apply Prog.ensures_pure
  exact ⟨V₆, (l₄.trans l₅).trans l₆, s₆⟩

end Run

end Hub11.Recovery
