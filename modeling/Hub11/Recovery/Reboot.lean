import Hub11.Recovery.Rescue

/-!
Booting the rescue image more than once.

A boot leaves a disk on which the next one finds nothing to make or to remove and puts the
same links and linkers in the place of the old ones (`Steady`). So the contents of the disk
are the same after every boot but the first, and they do not depend on the order in which
directories are listed or on when the disk appears. This is about the image as it is built,
for arm64, where nothing is merged.
-/

namespace Hub11.Recovery

open Hub11.Effect Hub11.Posix

/-! ### The tree before step 6 -/

theorem mkdir_of_there {V : View} {p : List Name} (h : V p ≠ none) : V.mkdir p = V := if_neg h

theorem ensured_of_there {V : View} (h : ∀ p ∈ madeDirs, V p ≠ none) : ensured V = V := by
  unfold ensured
  rw [mkdir_of_there (p := [nUsr]) (h _ (by simp [madeDirs])),
    mkdir_of_there (p := [nUsr, nLib]) (h _ (by simp [madeDirs])),
    mkdir_of_there (p := [nUsr, nLib64]) (h _ (by simp [madeDirs])),
    mkdir_of_there (p := [nUsr, nLib, nArch]) (h pArch (by simp [madeDirs])),
    mkdir_of_there (p := [nUsr, nLib, nModules]) (h _ (by simp [madeDirs]))]

/-- A tree in which the directories are made and `/lib` is no empty directory: steps 1 to 5
leave it as it is. -/
structure Prepared (V : View) : Prop where
  made : ∀ p ∈ madeDirs, V p ≠ none
  usrLib : V [nUsr, nLib] = some .dir
  arch : V pArch = some .dir
  lib : V.below [nLib] ≠ View.one .dir

namespace Prepared

variable {V U : View}

theorem again (h : Prepared V) : prepared V = V := by
  rw [prepared, ensured_of_there h.made, View.rmdir, if_neg h.lib]

theorem workable (h : Prepared V) (hV : V.Closed) : Workable V where
  usr := by
    by_contra hne
    rw [not_or] at hne
    have hnone : V [nUsr, nLib] = none := hV [nUsr] [nLib] hne.2 (by simp)
    rw [h.usrLib] at hnone
    cases hnone
  usrLib := .inr h.usrLib
  arch := .inr h.arch

/-- Steps 6 and 7 keep the directories, and put a link in the place of `/lib` or nothing. -/
theorem lays {fs : FS} {ld ld231 : Option Bytes} (h : Prepared V)
    (hlays : Lays fs (spots ld ld231) V U) : Prepared U := by
  have hdirs : ∀ p ∈ pArch :: madeDirs, ∀ q ∈ spotPaths, ¬ q <+: p := by decide
  have hsame : ∀ p ∈ pArch :: madeDirs, U p = V p := fun p hp =>
    hlays.of_not_below fun q hq => hdirs p hp q hq
  refine ⟨?_, ?_, ?_, ?_⟩
  · intro p hp
    rw [hsame p (List.mem_cons_of_mem _ hp)]
    exact h.made p hp
  · rw [hsame [nUsr, nLib] (by simp [madeDirs]), h.usrLib]
  · rw [hsame pArch List.mem_cons_self, h.arch]
  · have hrest : ∀ p ∈ spotPaths.tail, p ≠ [] ∧ p.head? ≠ some nLib := by decide
    by_cases hfull : V.Full [nLib]
    · rw [(hlays.kept_of_blocked hfull).below_eq hrest]
      exact h.lib
    · obtain ⟨k, _, rest⟩ := hlays.laid_of_free hfull
      rw [rest.below_eq hrest]
      intro hone
      have hroot := congrFun hone []
      rw [View.below, List.append_nil, show (Spot.link nLib (relPath [nUsr, nLib])).path = [nLib]
        from rfl, View.put_self] at hroot
      cases hroot

end Prepared

/-- After steps 1 to 5 there is nothing left to do for them. -/
theorem Workable.prepared {V : View} (h : Workable V) (hV : V.Closed) (hroot : V [] = some .dir) :
    Prepared (prepared V) := by
  obtain ⟨_, husrLib, harch, hmade⟩ := h.ensured_spec hV hroot
  have hapart : ∀ p ∈ madeDirs, ¬ [nLib] <+: p := by decide
  refine ⟨fun p hp => ?_, ?_, ?_, ?_⟩
  · rw [prepared_of_not_lib V (hapart p hp)]
    exact hmade p hp
  · exact (prepared_of_not_lib V (by decide)).trans husrLib
  · exact (prepared_of_not_lib V (by decide)).trans harch
  · unfold Recovery.prepared View.rmdir
    split
    · rw [View.below_put_self]
      intro hone
      cases congrFun hone []
    · assumption

/-! ### No new files before step 6 -/

/-- What a path of the disk holds, without the number of its inode. -/
inductive Item where
  | dir
  | file (data : Bytes)
  | link (target : Path)
deriving DecidableEq

def Item.ofNode : Node → Item
  | .dir _ _ => .dir
  | .file data => .file data
  | .symlink target => .link target

/-- The names on the disk, with the kinds, the bytes of files and the targets of links, but without
inode numbers. -/
def contents (fs : FS) (root : Ino) (p : List Name) : Option Item :=
  (fs.descend root p).bind fun i => (fs.node i).map .ofNode

/-- The state `w` in which the rescue image boots on arm64 from the disk that `w₀` has left.
No call fails and no write is short, and the disk can be mounted at one of the attempts. -/
structure BootsFrom (root : Ino) (ld ld231 : Option Bytes) (w₀ : World) (env : Env) (w : World) :
    Prop where
  arm : env.abi = .arm64
  noFaults : env.choices.NoFaults
  noShort : env.choices.NoShort
  diskRoot : env.diskRoot = root
  boot : Boot env (w₀.fs.view root) w
  disk : ∀ i, i.dev = root.dev → w.fs.node i = w₀.fs.node i
  ready : AppearsWithin env 15 (w.tick + 9)
  ram : RamFile env w nLdLinux ld
  ram231 : RamFile env w nLd231 ld231

section Boots

variable {root : Ino} {ld ld231 : Option Bytes} {w₀ w w₁ : World} {env : Env}

theorem BootsFrom.completes (b : BootsFrom root ld ld231 w₀ env w)
    (h : Workable (w₀.fs.view root)) :
    ∃ w₁, Prog.Returns (kernel env) start w .complete w₁ ∧
      Rescued env ld ld231 (prepared (w₀.fs.view root)) w w₁ := by
  obtain ⟨w₁, hreturns, rescued, _⟩ :=
    start_rescues b.arm b.noFaults b.noShort b.boot b.ready h b.ram b.ram231
  exact ⟨w₁, hreturns, rescued⟩

/-- The files and links of the disk are kept from one boot to the end of the next. -/
theorem BootsFrom.node_eq (b : BootsFrom root ld ld231 w₀ env w)
    (hleaves : LeavesKept w.fs w₁.fs) {p : List Name} {i : Ino}
    (hi : w₀.fs.view root p = some (.leaf i)) : w₁.fs.node i = w₀.fs.node i := by
  rw [← b.boot.view] at hi
  obtain ⟨j, hj, hobj⟩ := Option.bind_eq_some_iff.mp hi
  cases w.fs.obj_leaf_eq hobj
  have hdev : i.dev = root.dev := b.diskRoot ▸ b.boot.forest.onDev (a := ()) hj
  rw [← b.disk i hdev]
  apply hleaves i (b.boot.forest.live (a := ()) hj)
  by_contra hdir
  rw [Bool.not_eq_false, ← FS.obj_eq_dir_iff, hobj] at hdir
  cases hdir

/-- A disk on which a boot finds nothing to do: nothing to make or to remove, and every place
met. -/
structure Steady (root : Ino) (ld ld231 : Option Bytes) (w : World) : Prop where
  prepared : Prepared (w.fs.view root)
  met : ∀ s ∈ spots ld ld231, s.Met w.fs (w.fs.view root)

theorem Rescued.steady {T : View} (h : Rescued env ld ld231 T w w₁) (hroot : env.diskRoot = root)
    (hT : Prepared T) : Steady root ld ld231 w₁ := by
  subst hroot
  exact ⟨hT.lays h.lays, h.lays.met (spots_compatible ld ld231)⟩

theorem contents_eq (fs : FS) (root : Ino) (p : List Name) :
    contents fs root p = (fs.view root p).bind fun o =>
      match o with
      | .dir => some .dir
      | .leaf i => (fs.node i).map .ofNode := by
  unfold contents FS.view
  cases hi : fs.descend root p with
  | none => rfl
  | some i =>
      simp only [Option.bind_some, FS.obj]
      cases hn : fs.node i with
      | none => rfl
      | some node => cases node <;> simp [hn, Item.ofNode]

theorem Alike.contents {fs fs' : FS} (h : Alike fs fs' (fs.view root) (fs'.view root)) :
    Recovery.contents fs root = Recovery.contents fs' root := by
  funext p
  rw [contents_eq, contents_eq]
  rcases h p with ⟨hp, hp'⟩ | ⟨hp, hp'⟩ | ⟨i, j, hi, hj, hij⟩
  · rw [hp, hp']
    rfl
  · rw [hp, hp']
    rfl
  · simp [hi, hj, hij]

/-- The next boot of a steady disk. -/
theorem Steady.next (h : Steady root ld ld231 w₀) (b : BootsFrom root ld ld231 w₀ env w) :
    ∃ w₁, Prog.Returns (kernel env) start w .complete w₁ ∧ Steady root ld ld231 w₁ ∧
      contents w₁.fs root = contents w₀.fs root := by
  have hV := w₀.fs.view_closed root
  obtain ⟨w₁, hreturns, rescued⟩ := b.completes (h.prepared.workable hV)
  rw [h.prepared.again] at rescued
  refine ⟨w₁, hreturns, rescued.steady b.diskRoot h.prepared, ?_⟩
  have hnode := fun p i => b.node_eq (p := p) (i := i) rescued.leaves
  have hlays := rescued.lays
  rw [b.diskRoot] at hlays
  have halike : Alike w₁.fs w₁.fs (w₀.fs.view root) (w₁.fs.view root) := by
    apply hlays.alike
    intro s hs
    refine (h.met s hs).imp_right ?_
    rintro ⟨i, hi, hnode'⟩
    exact ⟨i, hi, (hnode _ i hi).trans hnode'⟩
  exact (halike.symm.trans (alike_of_node_eq hnode)).contents

end Boots

section Sample

end Sample

end Hub11.Recovery
