import Hub11.Recovery.Exact
import Hub11.Recovery.Rescue

/-!
What a whole run of `_start` makes of a root file system it can repair.

A tree is `Repairable` if `/lib_old`, `/lib` and `/usr/lib` agree on what is a directory,
share no file, and nothing is in the way of the links and the linkers. From such a tree
every run without failures ends in `repaired`, whatever the order of the directory
listings: the three trees are one, `/lib` winning over `/lib_old` and `/lib_old` over
`/usr/lib`.
-/

namespace Hub11.Recovery

open Hub11.Effect Hub11.Posix

/-! ### Merging trees without a conflict -/

theorem Tame.or {x y z : View} (h : Tame x y) (h' : Tame x z) : Tame x (y.or z) := by
  intro p i
  constructor
  · rintro ⟨hx, hor⟩
    rcases Option.or_eq_some_iff.mp hor with hy | ⟨_, hz⟩
    · exact (h p i).1 ⟨hx, hy⟩
    · exact (h' p i).1 ⟨hx, hz⟩
  · rintro ⟨hx, hor⟩
    rcases Option.or_eq_some_iff.mp hor with hy | ⟨_, hz⟩
    · exact (h p i).2 ⟨hx, hy⟩
    · exact (h' p i).2 ⟨hx, hz⟩

theorem Unshared.or {x y z : View} (h : Unshared x y) (h' : Unshared x z) :
    Unshared x (y.or z) := by
  intro p i hx hor
  rcases Option.or_eq_some_iff.mp hor with hy | ⟨_, hz⟩
  · exact h p i hx hy
  · exact h' p i hx hz

/-- Two trees that agree on what is a directory and share no file merge completely. -/
theorem not_blocks_of_tame {x y : View} (h : Tame x y) (hshare : Unshared x y) (q : List Name) :
    ¬ Blocks x y q := by
  induction q generalizing x y with
  | nil =>
      rintro (⟨i, hx, hy | hy⟩ | ⟨hx, _, j, hy⟩)
      · exact (h [] i).2 ⟨hx, hy⟩
      · exact hshare [] i hx hy
      · exact (h [] j).1 ⟨hx, hy⟩
  | cons n q ih =>
      rintro ⟨_, _, hq⟩
      exact ih (fun p i => h (n :: p) i) (fun p i => hshare (n :: p) i) hq

/-- The source wins, path by path. -/
theorem overlay_eq_or {x y : View} (h : Tame x y) (hx : x.Closed) (hy : y.Closed) :
    overlay x y = x.or y := by
  funext p
  change overlay x y p = (x p).or (y p)
  induction p generalizing x y with
  | nil =>
      cases hx0 : x [] with
      | none => cases hy0 : y [] <;> simp [overlay, hx0, hy0]
      | some o =>
          cases hy0 : y [] with
          | none => cases o <;> simp [overlay, hx0, hy0]
          | some o' =>
              cases o with
              | leaf i =>
                  cases o' with
                  | leaf j => simp [overlay, hx0, hy0]
                  | dir => exact absurd ⟨hx0, hy0⟩ (h [] i).2
              | dir =>
                  cases o' with
                  | leaf j => exact absurd ⟨hx0, hy0⟩ (h [] j).1
                  | dir => simp [overlay, hx0, hy0]
  | cons n p ih =>
      cases hx0 : x [] with
      | none =>
          rw [hx.eq_none (by simp [hx0]) (by simp)]
          cases hy0 : y [] <;> simp [overlay, hx0]
      | some o =>
          cases hy0 : y [] with
          | none =>
              rw [hy.eq_none (by simp [hy0]) (by simp), Option.or_none]
              cases o <;> simp [overlay, hx0, hy0]
          | some o' =>
              cases o with
              | leaf i =>
                  rw [hx.eq_none (by simp [hx0]) (by simp)]
                  simp [overlay, hx0, hy0]
              | dir =>
                  cases o' with
                  | leaf j => exact absurd ⟨hx0, hy0⟩ (h [] j).1
                  | dir =>
                      simp only [overlay, hx0, hy0]
                      exact ih (fun p i => h (n :: p) i) (hx.sub n) (hy.sub n)

theorem or_closed {x y : View} (h : Tame x y) (hx : x.Closed) (hy : y.Closed) :
    (x.or y).Closed := by
  intro p q hp hq
  have hxp : x p ≠ some .dir := by
    intro hdir
    exact hp (by simp [hdir])
  have hyp : y p ≠ some .dir := by
    intro hdir
    cases hx0 : x p with
    | none => exact hp (by simp [hx0, hdir])
    | some o =>
        cases o with
        | dir => exact hxp hx0
        | leaf i => exact (h p i).2 ⟨hx0, hdir⟩
  simp [hx p q hxp hq, hy p q hyp hq]

/-- A check on the paths of the first tree. -/
theorem tame_unshared_of_support {x y : View} {ps : List (List Name)} (hx : x.Support ps)
    (h : ∀ p ∈ ps, (x p = some .dir → y p = none ∨ y p = some .dir) ∧
      (x p = none ∨ x p = some .dir ∨ (y p ≠ some .dir ∧ x p ≠ y p))) :
    Tame x y ∧ Unshared x y := by
  have hcheck : ∀ p o, x p = some o → (o = .dir → y p = none ∨ y p = some .dir) ∧
      (o = .dir ∨ (y p ≠ some .dir ∧ some o ≠ y p)) := by
    intro p o hp
    obtain ⟨h₁, h₂⟩ := h p (hx p (by simp [hp]))
    rw [hp] at h₁ h₂
    refine ⟨fun ho => h₁ (by rw [ho]), ?_⟩
    rcases h₂ with h₂ | h₂ | h₂
    · cases h₂
    · exact .inl (Option.some.inj h₂)
    · exact .inr h₂
  constructor
  · intro p i
    constructor
    · rintro ⟨hp, hy⟩
      rcases (hcheck p _ hp).1 rfl with h' | h'
      · rw [h'] at hy
        cases hy
      · rw [h'] at hy
        cases hy
    · rintro ⟨hp, hy⟩
      rcases (hcheck p _ hp).2 with h' | h'
      · cases h'
      · exact h'.1 hy
  · intro p i hp hy
    rcases (hcheck p _ hp).2 with h' | h'
    · cases h'
    · exact h'.2 hy.symm

/-- The tree below a path, if there is a directory. -/
def treeAt (V : View) (p : List Name) : View :=
  if V p = some .dir then V.below p else View.empty

theorem treeAt_closed {V : View} (h : V.Closed) (p : List Name) : (treeAt V p).Closed := by
  unfold treeAt
  split
  · exact h.below p
  · exact View.closed_empty

section Taken

variable {V : View} {src dst : List Name} (hV : V.Closed) (hsd : ¬ src <+: dst) (hds : ¬ dst <+: src)
  (htame : Tame (treeAt V src) (V.below dst))
  (hshare : Unshared (treeAt V src) (V.below dst))
include hV hsd hds htame hshare

/-- After a merge without a conflict, apart from what is left at the source. -/
theorem takenIn_put (X : View) :
    (takenIn V src dst).put src X =
      (V.put dst ((treeAt V src).or (V.below dst))).put src X := by
  unfold takenIn
  by_cases hdir : V src = some .dir
  · have hsrc : treeAt V src = V.below src := if_pos hdir
    rw [hsrc] at htame hshare ⊢
    have hremains : remains (V.below src) (V.below dst) = View.one .dir :=
      remains_of_not_blocks (by simpa [View.below] using hdir) (not_blocks_of_tame htame hshare)
    have hover := overlay_eq_or htame (hV.below src) (hV.below dst)
    rw [if_pos hdir]
    have hempty : (absorbed V src dst).below src = View.one .dir := by
      rw [absorbed, View.below_put_of_apart _ hds hsd, View.below_put_self, hremains]
    rw [View.rmdir, if_pos hempty, View.put_put, absorbed, hremains, hover,
      View.put_comm _ hds hsd, View.put_put, View.put_comm _ hsd hds]
  · have hsrc : treeAt V src = View.empty := if_neg hdir
    rw [if_neg hdir, hsrc]
    have hsame : View.empty.or (V.below dst) = V.below dst := by
      funext p
      rfl
    rw [hsame, View.put_below]

/-- Nothing is left of a directory that was merged without a conflict. -/
theorem takenIn_src (hkind : V src = none ∨ V src = some .dir) :
    (takenIn V src dst).below src = View.empty := by
  unfold takenIn
  rcases hkind with habsent | hdir
  · rw [if_neg (by simp [habsent])]
    apply (hV.below src).eq_empty
    simpa [View.below] using habsent
  · have hsrc : treeAt V src = V.below src := if_pos hdir
    rw [hsrc] at htame hshare
    have hremains : remains (V.below src) (V.below dst) = View.one .dir :=
      remains_of_not_blocks (by simpa [View.below] using hdir) (not_blocks_of_tame htame hshare)
    have hempty : (absorbed V src dst).below src = View.one .dir := by
      rw [absorbed, View.below_put_of_apart _ hds hsd, View.below_put_self, hremains]
    rw [if_pos hdir, View.rmdir, if_pos hempty, View.below_put_self]

end Taken

/-- A merge touches its source and its destination only. -/
theorem takenIn_of_not_below (V : View) {src dst r : List Name} (hs : ¬ src <+: r)
    (hd : ¬ dst <+: r) : takenIn V src dst r = V r := by
  unfold takenIn
  split
  · rw [View.rmdir_of_not_below _ hs, absorbed, View.put_of_not_below _ _ hd,
      View.put_of_not_below _ _ hs]
  · rfl

/-! ### Trees that can be repaired -/

/-- The three trees that become one. -/
inductive Tree where
  | lib
  | old
  | usr
deriving DecidableEq

/-- `/lib` and `/lib_old`, as far as they are directories, and `/usr/lib` with the
directories that `_start` makes. -/
def Tree.of (V : View) : Tree → View
  | .lib => treeAt V [nLib]
  | .old => treeAt V [nLibOld]
  | .usr => (ensured V).below [nUsr, nLib]

/-- Where the linkers go, seen from `/usr/lib`. -/
def linkerPaths : List (List Name) := [[nArch, nLdLinux], [nArch, nLd231], [nLdLinux]]

/-- A tree on which a full repair makes sense: what has to be a directory is one or is missing, the
three trees agree on what is a directory and share no file, and nothing is in the way of links and
linkers. -/
structure Repairable (V : View) : Prop where
  usr : V [nUsr] = none ∨ V [nUsr] = some .dir
  usrLib : V [nUsr, nLib] = none ∨ V [nUsr, nLib] = some .dir
  arch : V pArch = none ∨ V pArch = some .dir
  libOld : V [nLibOld] = none ∨ V [nLibOld] = some .dir
  lib64 : ¬ V.Full [nLib64]
  kinds : ∀ t u : Tree, Tame (t.of V) (u.of V)
  unshared : ∀ t u : Tree, t ≠ u → Unshared (t.of V) (u.of V)
  linkers : ∀ (t : Tree), ∀ p ∈ linkerPaths, t.of V p ≠ some .dir

/-- The three trees in one. `/lib` wins over `/lib_old`, and `/lib_old` over `/usr/lib`, as the
order of the merges has it. -/
def united (V : View) : View := (Tree.lib.of V).or ((Tree.old.of V).or (Tree.usr.of V))

/-- The tree after the merges, apart from what is left at `/lib`. -/
def unitedTree (V : View) : View :=
  ((ensured V).put [nUsr, nLib] (united V)).put [nLibOld] View.empty

/-- The tree after the repair, with the inodes of the two links and the three files: what the
rescue image promises, as a function of the tree. -/
def repaired (V : View) (i j a b c : Ino) : View :=
  withLinkers (((unitedTree V).put [nLib] (View.one (.leaf i))).put [nLib64] (View.one (.leaf j)))
    a b c

section United

variable {V : View} (h : Repairable V)
include h

theorem united_of_dir {p : List Name} (hp : Tree.usr.of V p = some .dir) :
    united V p = some .dir := by
  have hkind : ∀ t : Tree, t.of V p = none ∨ t.of V p = some .dir := by
    intro t
    cases ht : t.of V p with
    | none => exact .inl rfl
    | some o =>
        cases o with
        | dir => exact .inr rfl
        | leaf i => exact absurd ⟨ht, hp⟩ (h.kinds t .usr p i).2
  rcases hkind .lib with hl | hl <;> rcases hkind .old with ho | ho <;>
    simp [united, hl, ho, hp]

theorem united_ne_dir {p : List Name} (hp : p ∈ linkerPaths) : united V p ≠ some .dir := by
  intro hdir
  simp only [united, View.or_apply, Option.or_eq_some_iff] at hdir
  rcases hdir with hl | ⟨_, ho | ⟨_, hu⟩⟩
  · exact h.linkers .lib p hp hl
  · exact h.linkers .old p hp ho
  · exact h.linkers .usr p hp hu

end United

theorem treeAt_eq {V W : View} {p : List Name} (h : ∀ q, V (p ++ q) = W (p ++ q)) :
    treeAt V p = treeAt W p := by
  have hroot : V p = W p := by simpa using h []
  have hbelow : V.below p = W.below p := by
    funext q
    exact h q
  simp only [treeAt, hroot, hbelow]

/-- The merge of `/lib_old` into `/usr/lib` leaves what is at any path outside the two. -/
theorem libOld_keeps (V : View) {r : List Name} (hold : ¬ [nLibOld] <+: r)
    (husr : ¬ [nUsr] <+: r) : takenIn (ensured V) [nLibOld] [nUsr, nLib] r = V r := by
  rw [takenIn_of_not_below _ hold, ensured_of_not_usr V husr]
  exact fun hr => husr ((List.prefix_append [nUsr] [nLib]).trans hr)

section Merging

variable {V : View} (hU : (ensured V).Closed) (h : Repairable V)
include hU h

/-- The tree after step 4. -/
theorem Repairable.libOld_taken :
    takenIn (ensured V) [nLibOld] [nUsr, nLib] =
      ((ensured V).put [nUsr, nLib] ((Tree.old.of V).or (Tree.usr.of V))).put [nLibOld]
        View.empty := by
  have htree : treeAt (ensured V) [nLibOld] = Tree.old.of V :=
    treeAt_eq fun q => ensured_of_not_usr V (not_below_of_ne (by decide) _ _)
  have htame : Tame (treeAt (ensured V) [nLibOld]) ((ensured V).below [nUsr, nLib]) :=
    htree ▸ h.kinds .old .usr
  have hshare : Unshared (treeAt (ensured V) [nLibOld]) ((ensured V).below [nUsr, nLib]) :=
    htree ▸ h.unshared .old .usr (by decide)
  have hkind : ensured V [nLibOld] = none ∨ ensured V [nLibOld] = some .dir := by
    rw [ensured_of_not_usr V (by decide)]
    exact h.libOld
  have hput := takenIn_put hU (by decide) (by decide) htame hshare View.empty
  have hsrc := takenIn_src hU (by decide) (by decide) htame hshare hkind
  rw [htree] at hput
  rw [← View.put_below (takenIn _ _ _) [nLibOld], hsrc, hput]
  rfl

omit hU in
/-- `/lib_old` is a directory or missing, and agrees with `/usr/lib` on what is one. -/
theorem Repairable.libOld_ready :
    (ensured V [nLibOld] = none ∨ ensured V [nLibOld] = some .dir) ∧
      (ensured V [nLibOld] = some .dir →
        Tame ((ensured V).below [nLibOld]) ((ensured V).below [nUsr, nLib])) := by
  have hold : ∀ q, ensured V (nLibOld :: q) = V (nLibOld :: q) :=
    fun q => ensured_of_not_usr V (not_below_of_ne (by decide) _ _)
  refine ⟨(hold []).symm ▸ h.libOld, fun hkind => ?_⟩
  have htree : (ensured V).below [nLibOld] = Tree.old.of V := by
    rw [Tree.of, treeAt, if_pos ((hold []).symm.trans hkind)]
    funext q
    exact hold q
  rw [htree]
  exact h.kinds .old .usr

/-- The trees of step 5. -/
theorem Repairable.lib_ready :
    treeAt (takenIn (ensured V) [nLibOld] [nUsr, nLib]) [nLib] = Tree.lib.of V ∧
    (takenIn (ensured V) [nLibOld] [nUsr, nLib]).below [nUsr, nLib] =
      (Tree.old.of V).or (Tree.usr.of V) ∧
    Tame (Tree.lib.of V) ((Tree.old.of V).or (Tree.usr.of V)) ∧
    Unshared (Tree.lib.of V) ((Tree.old.of V).or (Tree.usr.of V)) := by
  refine ⟨?_, ?_, (h.kinds .lib .old).or (h.kinds .lib .usr),
    (h.unshared .lib .old (by decide)).or (h.unshared .lib .usr (by decide))⟩
  · exact treeAt_eq fun q => libOld_keeps V (not_below_of_ne (by decide) _ _)
      (not_below_of_ne (by decide) _ _)
  · rw [h.libOld_taken hU, View.below_put_of_apart _ (by decide) (by decide),
      View.below_put_self]

section Closed

variable (hV : V.Closed) (hdir : ensured V [nUsr, nLib] = some .dir)
include hV hdir

theorem Repairable.libOld_closed : (takenIn (ensured V) [nLibOld] [nUsr, nLib]).Closed := by
  have hold : (Tree.old.of V).Closed := treeAt_closed hV _
  have husr : (Tree.usr.of V).Closed := hU.below _
  rw [h.libOld_taken hU]
  apply View.Closed.put _ View.closed_empty (.inr rfl)
  exact hU.put (or_closed (h.kinds .old .usr) hold husr) (.inl (by simp [hdir]))

/-- The tree after step 5, apart from `/lib` itself. -/
theorem Repairable.lib_taken (X : View) :
    (takenIn (takenIn (ensured V) [nLibOld] [nUsr, nLib]) [nLib] [nUsr, nLib]).put [nLib] X =
      (unitedTree V).put [nLib] X := by
  obtain ⟨htree, hbelow, htame, hshare⟩ := h.lib_ready hU
  rw [takenIn_put (h.libOld_closed hU hV hdir) (by decide) (by decide)
    (by rw [htree, hbelow]; exact htame) (by rw [htree, hbelow]; exact hshare) X, htree, hbelow,
    h.libOld_taken hU, View.put_comm _ (by decide) (by decide) View.empty, View.put_put]
  rfl

/-- Nothing is in the way of the two links. -/
theorem Repairable.not_full :
    ¬ (takenIn (takenIn (ensured V) [nLibOld] [nUsr, nLib]) [nLib] [nUsr, nLib]).Full [nLib] ∧
    ¬ (takenIn (takenIn (ensured V) [nLibOld] [nUsr, nLib]) [nLib] [nUsr, nLib]).Full
      [nLib64] := by
  obtain ⟨htree, hbelow, htame, hshare⟩ := h.lib_ready hU
  constructor
  · rintro ⟨hlib, _⟩
    by_cases hkind : takenIn (ensured V) [nLibOld] [nUsr, nLib] [nLib] = some .dir
    · have hsrc : (takenIn (takenIn (ensured V) [nLibOld] [nUsr, nLib]) [nLib]
          [nUsr, nLib]).below [nLib] = View.empty :=
        takenIn_src (h.libOld_closed hU hV hdir) (by decide) (by decide)
          (by rw [htree, hbelow]; exact htame) (by rw [htree, hbelow]; exact hshare) (.inr hkind)
      have hnone := congrFun hsrc []
      rw [View.below, List.append_nil, hlib] at hnone
      cases hnone
    · rw [takenIn, if_neg hkind] at hlib
      exact hkind hlib
  · have hsame : ∀ q, takenIn (takenIn (ensured V) [nLibOld] [nUsr, nLib]) [nLib] [nUsr, nLib]
        (nLib64 :: q) = V (nLib64 :: q) := by
      intro q
      rw [takenIn_of_not_below _ (not_below_of_ne (by decide) _ _) (not_below_of_ne (by decide) _ _)]
      exact libOld_keeps V (not_below_of_ne (by decide) _ _) (not_below_of_ne (by decide) _ _)
    rintro ⟨hlib64, hfull⟩
    refine h.lib64 ⟨(hsame []).symm.trans hlib64, ?_⟩
    have hbelow64 : (takenIn (takenIn (ensured V) [nLibOld] [nUsr, nLib]) [nLib]
        [nUsr, nLib]).below [nLib64] = V.below [nLib64] := by
      funext q
      exact hsame q
    rwa [hbelow64] at hfull

end Closed

end Merging

/-! ### The links and the linkers -/

/-- Where nothing is in the way, all places are filled: the links with the new links, and
the places of the linkers with the copies, so that the last two links are refused. -/
theorem Lays.laid_all {fs : FS} {ld ld231 : Bytes} {T U : View}
    (h : Lays fs (spots (some ld) (some ld231)) T U) (hlib : ¬ T.Full [nLib])
    (hlib64 : ¬ T.Full [nLib64]) (hlinkers : ∀ p ∈ linkerPaths, T (nUsr :: nLib :: p) ≠ some .dir) :
    ∃ i j a b c, U = withLinkers ((T.put [nLib] (View.one (.leaf i))).put [nLib64]
        (View.one (.leaf j))) a b c ∧
      fs.node i = some (.symlink (relPath [nUsr, nLib])) ∧
      fs.node j = some (.symlink (relPath [nUsr, nLib64])) ∧
      fs.node a = some (.file ld) ∧ fs.node b = some (.file ld231) ∧ fs.node c = some (.file ld) := by
  obtain ⟨i, hi, h⟩ := h.laid_of_free hlib
  have hlib64' : ¬ (T.put [nLib] (View.one (.leaf i))).Full [nLib64] := by
    rw [View.Full, View.put_of_not_below _ _ (by decide),
      View.below_put_of_apart _ (by decide) (by decide)]
    exact hlib64
  obtain ⟨j, hj, h⟩ := h.laid_of_free hlib64'
  have hkeep : ∀ p, (T.put [nLib] (View.one (.leaf i))).put [nLib64] (View.one (.leaf j))
      (nUsr :: nLib :: p) = T (nUsr :: nLib :: p) := by
    intro p
    rw [View.put_of_not_below _ _ (not_below_of_ne (by decide) _ _),
      View.put_of_not_below _ _ (not_below_of_ne (by decide) _ _)]
  change Lays fs _ ((T.put [nLib] (View.one (.leaf i))).put [nLib64] (View.one (.leaf j))) U at h
  generalize hW : (T.put [nLib] (View.one (.leaf i))).put [nLib64] (View.one (.leaf j)) = W at h hkeep
  have hfree : ∀ {p : List Name} {file : Bytes} {X : View}, p ∈ linkerPaths →
      X (nUsr :: nLib :: p) = W (nUsr :: nLib :: p) →
      ¬ (Spot.copy (nUsr :: nLib :: p) (some file)).Blocked X := by
    rintro p file X hp hX (hnone | hdir)
    · cases hnone
    · exact hlinkers p hp ((hX.trans (hkeep p)).symm.trans hdir)
  obtain ⟨a, ha, h⟩ := h.laid_of_free (hfree (by decide) rfl)
  have hpast := View.put_of_not_below W (View.one (.leaf a)) (show ¬ pArchLd <+: pArchLd231 by decide)
  obtain ⟨b, hb, h⟩ := h.laid_of_free (hfree (by decide) hpast)
  have hpast' := (View.put_of_not_below (W.put pArchLd (View.one (.leaf a))) (View.one (.leaf b))
    (show ¬ pArchLd231 <+: pLd by decide)).trans
      (View.put_of_not_below W (View.one (.leaf a)) (show ¬ pArchLd <+: pLd by decide))
  obtain ⟨c, hc, h⟩ := h.laid_of_free (hfree (by decide) hpast')
  -- the copies are in the way of the last two links
  have hthere : withLinkers W a b c pArchLd231 ≠ none := by
    rw [withLinkers, View.put_of_not_below _ _ (by decide), View.put_self]
    simp
  have hthere' : withLinkers W a b c pLd ≠ none := by
    rw [withLinkers, View.put_self]
    simp
  cases (h.kept_of_blocked hthere).kept_of_blocked hthere' with
  | nil => exact ⟨i, j, a, b, c, by rw [hW]; rfl, hi, hj, ha, hb, hc⟩

/-! ### The run -/

/-- With nothing in `/lib_old` and `/lib` the united tree is that of `/usr/lib`. -/
theorem united_of_nothing {V : View} (husrLib : ensured V [nUsr, nLib] = some .dir)
    (hold : V [nLibOld] = none) (hlib : ¬ V.Full [nLib]) :
    united V = (ensured V).below [nUsr, nLib] := by
  have hnone : Tree.old.of V = View.empty := by
    rw [Tree.of, treeAt, if_neg (by simp [hold])]
  have hone : Tree.lib.of V = View.empty ∨ Tree.lib.of V = View.one .dir := by
    rw [Tree.of, treeAt]
    split
    · rename_i hdir
      by_contra hne
      exact hlib ⟨hdir, fun h => hne (.inr h)⟩
    · exact .inl rfl
  funext p
  rw [united, hnone]
  rcases hone with hone | hone
  · rw [hone]
    rfl
  · rw [hone]
    cases p with
    | nil => exact husrLib.symm
    | cons n p => rfl

/-- What `_start` leaves behind, apart from the mount table and the log: the repaired tree, and
every old file and link with its contents. -/
structure Repaired (env : Env) (V : View) (ld ld231 : Bytes) (fs fs' : FS) : Prop where
  tree : ∃ i j a b c, fs'.view env.diskRoot = repaired V i j a b c ∧
    fs'.node i = some (.symlink (relPath [nUsr, nLib])) ∧
    fs'.node j = some (.symlink (relPath [nUsr, nLib64])) ∧
    fs'.node a = some (.file ld) ∧ fs'.node b = some (.file ld231) ∧ fs'.node c = some (.file ld)
  contents : LeavesKept fs fs'

/-- The run of `_start` comes to its end with the disk unmounted and its tree repaired, and
says so on the console. -/
def Repairs (env : Env) (V : View) (w : World) (ld ld231 : Bytes) : Prop :=
  ∃ w', Prog.Returns (kernel env) start w .complete w' ∧
    Repaired env V ld ld231 w.fs w'.fs ∧ w'.mount = none ∧
    (env.choices.console = true → .lit successLine ∈ w'.log ∧ .lit bannerLine ∈ w'.log)

theorem repaired_root (V : View) (i j a b c : Ino) :
    repaired V i j a b c [nLib] = some (.leaf i) ∧ repaired V i j a b c [nLibOld] = none ∧
      repaired V i j a b c pLd = some (.leaf c) := by
  refine ⟨?_, ?_, ?_⟩
  · rw [repaired, withLinkers, View.put_of_not_below _ _ (by decide),
      View.put_of_not_below _ _ (by decide), View.put_of_not_below _ _ (by decide),
      View.put_of_not_below _ _ (by decide), View.put_self, View.one_nil]
  · rw [repaired, withLinkers, View.put_of_not_below _ _ (by decide),
      View.put_of_not_below _ _ (by decide), View.put_of_not_below _ _ (by decide),
      View.put_of_not_below _ _ (by decide), View.put_of_not_below _ _ (by decide), unitedTree,
      View.put_self, View.empty_apply]
  · rw [repaired, withLinkers, View.put_self, View.one_nil]

section Run

variable {env : Env} {w w' : World} {V T : View} {ld ld231 : Bytes}

/-- In `/usr/lib` there is the united tree, also where only `/lib` differs. -/
theorem united_below (hT : ∀ X, T.put [nLib] X = (unitedTree V).put [nLib] X) (p : List Name) :
    T (nUsr :: nLib :: p) = united V p := by
  have hapart : ¬ [nLib] <+: nUsr :: nLib :: p := not_below_of_ne (by decide) _ _
  rw [← View.put_of_not_below T View.empty hapart, hT,
    View.put_of_not_below _ _ (not_below_of_ne (by decide) _ _), unitedTree,
    View.put_of_not_below _ _ (not_below_of_ne (by decide) _ _)]
  exact View.put_append _ [nUsr, nLib] p _

/-- The tree is repaired if that before step 6 was the united one, with nothing in the way
of the links. -/
theorem Rescued.repaired (h : Repairable V) (rescued : Rescued env (some ld) (some ld231) T w w')
    (hT : ∀ X, T.put [nLib] X = (unitedTree V).put [nLib] X)
    (hlib : ¬ T.Full [nLib]) (hlib64 : ¬ T.Full [nLib64])
    (hannounced : env.choices.console = true → Announced env w') :
    Repaired env V ld ld231 w.fs w'.fs ∧ w'.mount = none ∧
      (env.choices.console = true → .lit successLine ∈ w'.log ∧ .lit bannerLine ∈ w'.log) := by
  have hlinkers : ∀ p ∈ linkerPaths, T (nUsr :: nLib :: p) ≠ some .dir := fun p hp => by
    rw [united_below hT]
    exact united_ne_dir h hp
  obtain ⟨i, j, a, b, c, hview, hi, hj, ha, hb, hc⟩ := rescued.lays.laid_all hlib hlib64 hlinkers
  rw [hT] at hview
  have hview : w'.fs.view env.diskRoot = Recovery.repaired V i j a b c := hview
  refine ⟨⟨⟨i, j, a, b, c, hview, hi, hj, ha, hb, hc⟩, rescued.leaves⟩,
    rescued.unmounted, fun hconsole => ?_⟩
  obtain ⟨hbanner, hsuccess⟩ := hannounced hconsole
  obtain ⟨hroot, _, hld⟩ := repaired_root V i j a b c
  refine ⟨hsuccess ⟨i, c, ld, ?_, hi, ?_, hc⟩, hbanner⟩
  · rw [hview, hroot]
  · rw [hview, hld]

section Boot

variable (hno : env.choices.NoFaults) (hwhole : env.choices.NoShort) (B : Boot env V w)
  (hready : AppearsWithin env 15 (w.tick + 9)) (ram : RamFile env w nLdLinux (some ld))
  (ram231 : RamFile env w nLd231 (some ld231)) (h : Repairable V)
include hno hwhole B hready ram ram231 h

/-- With the number that `O_DIRECTORY` has in the generic header, `_start` repairs every
tree that can be repaired, whatever the order of the directory listings and the sizes of
the reads. -/
theorem start_repairs (habi : env.abi = .generic) : Repairs env V w ld ld231 := by
  have hrun : Prog.Eventually (kernel env) (fun _ _ => True) start w fun halt w' =>
      halt = .complete ∧ Repaired env V ld ld231 w.fs w'.fs ∧ w'.mount = none ∧
      (env.choices.console = true → .lit successLine ∈ w'.log ∧ .lit bannerLine ∈ w'.log) := by
    apply start_eventually hno B hready
    intro out w₁ R early hidle hout
    apply Prog.Eventually.bind (mergeAll_grows out)
    apply eventually_print
    intro w₂ quiet
    have l₂ := R.quiet quiet
    apply Prog.Eventually.bind (Prog.Grows.const _)
    apply Prog.eventually_of_ensures
    apply (ensureDirs_ensures hno l₂.rootfs h.usr h.usrLib).mono
    rintro _ w₃ ⟨l₃, hdir, harch⟩
    have hU := l₃.rootfs.closed_view
    have hV := R.closed_view
    obtain ⟨hkind, htame⟩ := h.libOld_ready
    obtain ⟨htree, hbelow, htame', hshare⟩ := h.lib_ready hU
    apply (mergePhases_eventually hno habi l₃.rootfs hdir hkind (fun hold => .inr (htame hold))
      (fun hlib => .inr ?_) out).mono
    · rintro _ w₄ l₄
      have l := (l₂.trans l₃).trans l₄
      have hfds : w₄.fds = w₁.fds := l.balanced.closed hno.noLeaks
      have hT := h.lib_taken hU hV hdir
      obtain ⟨hfull, hfull64⟩ := h.not_full hU hV hdir
      apply (rebuild_rescues hno hwhole l₄.rootfs (hidle.of_eq hfds)
        ((united_below hT []).trans (united_of_dir h hdir))
        ((united_below hT [nArch]).trans (united_of_dir h (harch h.arch)))
        ((ram.early early (by decide) (by decide)).since l.since)
        ((ram231.early early (by decide) (by decide)).since l.since) out).mono
      rintro _ w₅ ⟨rescued, hannounced⟩
      refine Rescued.repaired h ⟨rescued.unmounted,
        early.leaves.trans (l.since.leaves.trans rescued.leaves), rescued.forest, rescued.lays⟩
        hT hfull hfull64 fun hconsole => hannounced ?_
      rw [World.desc_eq hfds, hout hconsole]
    · rw [treeAt, if_pos hlib] at htree
      rw [htree, hbelow]
      exact htame'
  obtain ⟨halt, w', hreturns, rfl, hrest⟩ := hrun.returns fun _ _ _ => trivial
  exact ⟨w', hreturns, hrest⟩

/-- On arm64 a boot can only repair a tree in which there is nothing to merge: `/lib_old`
stays where it is, and a `/lib` with something in it too. -/
theorem nothing_to_merge_of_repairs (harm : env.abi = .arm64) (hrepairs : Repairs env V w ld ld231) :
    V [nLibOld] = none ∧ ¬ V.Full [nLib] := by
  obtain ⟨w₁, hreturns, rescued, _⟩ :=
    start_rescues harm hno hwhole B hready ⟨h.usr, h.usrLib, h.arch⟩ ram ram231
  obtain ⟨w', hreturns', ⟨⟨i, j, a, b, c, hview, _⟩, _⟩, _⟩ := hrepairs
  obtain ⟨_, rfl⟩ := hreturns'.unique start_grows hreturns
  obtain ⟨hroot, hold, _⟩ := repaired_root V i j a b c
  have hlays := rescued.lays
  rw [hview] at hlays
  constructor
  · have hbelow := hlays.below_eq (n := nLibOld)
      (show ∀ p ∈ spotPaths, p ≠ [] ∧ p.head? ≠ some nLibOld by decide)
    have hkept : prepared V [nLibOld] = V [nLibOld] :=
      (prepared_of_not_lib V (by decide)).trans (ensured_of_not_usr V (by decide))
    rw [← hkept, ← hold]
    exact (congrFun hbelow []).symm
  · intro hfull
    have hfull' : (prepared V).Full [nLib] := full_prepared.mpr hfull
    have hbelow := (hlays.kept_of_blocked hfull').below_eq (n := nLib)
      (show ∀ p ∈ spotPaths.tail, p ≠ [] ∧ p.head? ≠ some nLib by decide)
    have hdir : Recovery.repaired V i j a b c [nLib] = some .dir :=
      (congrFun hbelow []).trans hfull'.1
    rw [hroot] at hdir
    cases hdir

/-- What becomes of the repair on arm64, where `openat` with the number of line 13 opens no
directory: of the trees that can be repaired, `_start` repairs exactly those in which there
is no `/lib_old` and `/lib` is no directory with something in it. -/
theorem start_repairs_iff (harm : env.abi = .arm64) :
    Repairs env V w ld ld231 ↔ V [nLibOld] = none ∧ ¬ V.Full [nLib] := by
  constructor
  · exact nothing_to_merge_of_repairs hno hwhole B hready ram ram231 h harm
  · rintro ⟨hold, hlib⟩
    obtain ⟨w', hreturns, rescued, hannounced⟩ :=
      start_rescues harm hno hwhole B hready ⟨h.usr, h.usrLib, h.arch⟩ ram ram231
    refine ⟨w', hreturns, Rescued.repaired h rescued ?_ (mt full_prepared.mp hlib)
      (mt full_prepared64.mp h.lib64) hannounced⟩
    have hclosed : V.Closed := B.view ▸ w.fs.view_closed env.diskRoot
    have hdir : ensured V [nUsr, nLib] = some .dir :=
      (Workable.ensured_spec ⟨h.usr, h.usrLib, h.arch⟩ hclosed B.top).2.1
    have hnone : (ensured V).below [nLibOld] = View.empty := by
      rw [ensured_below V (by decide)]
      exact (hclosed.below [nLibOld]).eq_empty hold
    intro X
    rw [prepared, View.put_rmdir, unitedTree, united_of_nothing hdir hold hlib, View.put_below,
      ← hnone, View.put_below]

end Boot

end Run

section Sample

/-- A disk with files of one name in `/lib`, `/lib_old` and `/usr/lib`, a directory in
`/lib` only, a link in the place of a linker and one at `/lib64`. -/
def strayLibs : FS := .ofList
  [(⟨0, 0⟩, .dir ⟨0, 0⟩ [(nLdLinux, ⟨0, 1⟩), (nLd231, ⟨0, 2⟩)]), (⟨0, 1⟩, .file [1, 2]),
    (⟨0, 2⟩, .file [3]),
    (⟨1, 10⟩, .dir ⟨1, 10⟩ [(nUsr, ⟨1, 11⟩), (nLib, ⟨1, 12⟩), (nLibOld, ⟨1, 13⟩),
      (nLib64, ⟨1, 14⟩)]),
    (⟨1, 11⟩, .dir ⟨1, 10⟩ [(nLib, ⟨1, 15⟩)]),
    (⟨1, 12⟩, .dir ⟨1, 10⟩ [(nDev, ⟨1, 16⟩), (nModules, ⟨1, 17⟩)]),
    (⟨1, 13⟩, .dir ⟨1, 10⟩ [(nDev, ⟨1, 18⟩), (nLdLinux, ⟨1, 19⟩)]),
    (⟨1, 14⟩, .symlink (relPath [nUsr])), (⟨1, 15⟩, .dir ⟨1, 11⟩ [(nDev, ⟨1, 20⟩)]),
    (⟨1, 16⟩, .file [4]), (⟨1, 17⟩, .dir ⟨1, 12⟩ [(nMnt, ⟨1, 21⟩)]), (⟨1, 18⟩, .file [5]),
    (⟨1, 19⟩, .symlink (absPath [nMnt])), (⟨1, 20⟩, .file [6]), (⟨1, 21⟩, .file [7])]

/-- The same disk with a file at `/lib` and no `/lib_old`. -/
def blockedLib : FS := .ofList
  [(⟨0, 0⟩, .dir ⟨0, 0⟩ [(nLdLinux, ⟨0, 1⟩), (nLd231, ⟨0, 2⟩)]), (⟨0, 1⟩, .file [1, 2]),
    (⟨0, 2⟩, .file [3]),
    (⟨1, 10⟩, .dir ⟨1, 10⟩ [(nUsr, ⟨1, 11⟩), (nLib, ⟨1, 18⟩), (nLib64, ⟨1, 14⟩)]),
    (⟨1, 11⟩, .dir ⟨1, 10⟩ [(nLib, ⟨1, 15⟩)]), (⟨1, 14⟩, .symlink (relPath [nUsr])),
    (⟨1, 15⟩, .dir ⟨1, 11⟩ [(nDev, ⟨1, 20⟩)]), (⟨1, 18⟩, .file [5]), (⟨1, 20⟩, .file [6])]

private def samplePaths (fs : FS) : List (List Name) :=
  [nUsr, nLib, nModules] :: [nUsr, nLib, nArch] :: [nUsr, nLib64] :: [nUsr, nLib] :: [nUsr] ::
    (fs.places 5 ⟨1, 10⟩).map Prod.fst

private theorem tree_support {fs : FS} (hshallow : fs.Shallow 5 ⟨1, 10⟩) (t : Tree) :
    (t.of (fs.view ⟨1, 10⟩)).Support
      ((samplePaths fs).map (List.drop 1) ++ (samplePaths fs).map (List.drop 2)) := by
  have hview : (fs.view ⟨1, 10⟩).Support ((fs.places 5 ⟨1, 10⟩).map Prod.fst) := hshallow.support
  have hens : (ensured (fs.view ⟨1, 10⟩)).Support (samplePaths fs) :=
    ((((hview.mkdir _).mkdir _).mkdir _).mkdir _).mkdir _
  have htree : ∀ n, (treeAt (fs.view ⟨1, 10⟩) [n]).Support ((samplePaths fs).map (List.drop 1)) := by
    intro n p hp
    unfold treeAt at hp
    split at hp
    · refine List.mem_map.mpr ⟨n :: p, ?_, rfl⟩
      exact List.mem_append_right [_, _, _, _, _] (hview (n :: p) hp)
    · exact absurd rfl hp
  intro p hp
  rw [List.mem_append]
  cases t with
  | lib => exact .inl (htree nLib p hp)
  | old => exact .inl (htree nLibOld p hp)
  | usr => exact .inr (hens.below [nUsr, nLib] p hp)

/-- What is to be checked, path by path, of two of the three trees. -/
private abbrev Agree (fs : FS) (t u : Tree) : Prop :=
  ∀ p ∈ (samplePaths fs).map (List.drop 1) ++ (samplePaths fs).map (List.drop 2),
    (t.of (fs.view ⟨1, 10⟩) p = some .dir →
      u.of (fs.view ⟨1, 10⟩) p = none ∨ u.of (fs.view ⟨1, 10⟩) p = some .dir) ∧
    (t.of (fs.view ⟨1, 10⟩) p = none ∨ t.of (fs.view ⟨1, 10⟩) p = some .dir ∨
      (u.of (fs.view ⟨1, 10⟩) p ≠ some .dir ∧
        t.of (fs.view ⟨1, 10⟩) p ≠ u.of (fs.view ⟨1, 10⟩) p))

private theorem repairable_of_agree {fs : FS} (hshallow : fs.Shallow 5 ⟨1, 10⟩)
    (hdirs : ∀ p ∈ [[nUsr], [nUsr, nLib], pArch, [nLibOld]],
      fs.view ⟨1, 10⟩ p = none ∨ fs.view ⟨1, 10⟩ p = some .dir)
    (h64 : fs.view ⟨1, 10⟩ [nLib64] ≠ some .dir) (hagree : ∀ t u, t ≠ u → Agree fs t u)
    (hlinkers : ∀ t : Tree, ∀ p ∈ linkerPaths, t.of (fs.view ⟨1, 10⟩) p ≠ some .dir) :
    Repairable (fs.view ⟨1, 10⟩) where
  usr := hdirs _ (by simp)
  usrLib := hdirs _ (by simp)
  arch := hdirs _ (by simp)
  libOld := hdirs _ (by simp)
  lib64 h := h64 h.1
  kinds t u := by
    by_cases htu : t = u
    · subst htu
      intro p i
      constructor <;> rintro ⟨h, h'⟩ <;> simp [h] at h'
    · exact (tame_unshared_of_support (tree_support hshallow t) (hagree t u htu)).1
  unshared t u htu := (tame_unshared_of_support (tree_support hshallow t) (hagree t u htu)).2
  linkers := hlinkers

private theorem strayLibs_checks : Bootable strayLibs ∧ Repairable (strayLibs.view ⟨1, 10⟩) :=
  ⟨by decide +kernel, repairable_of_agree (by decide +kernel) (by decide +kernel)
    (by decide +kernel)
    (fun t u htu => by cases t <;> cases u <;> first | exact absurd rfl htu | decide +kernel)
    fun t => by cases t <;> decide +kernel⟩

private theorem strayLibs_boot :
    Boot patientEnv (strayLibs.view ⟨1, 10⟩) (freshWorld strayLibs) :=
  freshWorld_boot patientEnv rfl rfl strayLibs_checks.1

/-- With a file at `/lib` there is nothing to merge, and the file is replaced by the link. So the
condition holds, and the tree is repaired. -/
theorem start_repairs_iff_blocked :
    Repairs patientEnv (blockedLib.view ⟨1, 10⟩) (freshWorld blockedLib) [1, 2] [3] ↔
      blockedLib.view ⟨1, 10⟩ [nLibOld] = none ∧ ¬ (blockedLib.view ⟨1, 10⟩).Full [nLib] :=
  start_repairs_iff (fun _ => rfl) (fun _ => rfl)
    (freshWorld_boot patientEnv rfl rfl (by decide +kernel))
    ⟨1, by decide, by decide⟩ ⟨⟨0, 1⟩, rfl, rfl⟩ ⟨⟨0, 2⟩, rfl, rfl⟩
    (repairable_of_agree (by decide +kernel) (by decide +kernel) (by decide +kernel)
      (fun t u htu => by cases t <;> cases u <;> first | exact absurd rfl htu | decide +kernel)
      (fun t => by cases t <;> decide +kernel)) rfl

/-- Every tree that can be repaired is repaired by a boot on arm64, without failures and with a disk
that appears in time. -/
def AlwaysRepairs : Prop :=
  ∀ (env : Env) (V : View) (w : World) (ld ld231 : Bytes), env.abi = .arm64 →
    env.choices.NoFaults → env.choices.NoShort → Boot env V w →
    AppearsWithin env 15 (w.tick + 9) → RamFile env w nLdLinux (some ld) →
    RamFile env w nLd231 (some ld231) → Repairable V → Repairs env V w ld ld231

/-- With libraries in `/lib` and `/lib_old` both directories stay as they are. -/
theorem not_alwaysRepairs : ¬ AlwaysRepairs := by
  intro h
  have ram : RamFile patientEnv (freshWorld strayLibs) nLdLinux (some [1, 2]) :=
    ⟨⟨0, 1⟩, rfl, rfl⟩
  have ram231 : RamFile patientEnv (freshWorld strayLibs) nLd231 (some [3]) :=
    ⟨⟨0, 2⟩, rfl, rfl⟩
  have hready : AppearsWithin patientEnv 15 9 := ⟨1, by decide, by decide⟩
  have hrepairs := h patientEnv _ _ _ _ rfl (fun _ => rfl) (fun _ => rfl) strayLibs_boot hready ram
    ram231 strayLibs_checks.2
  have hnone := (nothing_to_merge_of_repairs (fun _ => rfl) (fun _ => rfl) strayLibs_boot hready ram
    ram231 strayLibs_checks.2 rfl hrepairs).1
  revert hnone
  decide +kernel

end Sample

end Hub11.Recovery
