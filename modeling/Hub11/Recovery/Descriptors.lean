import Mathlib.Data.Set.Insert
import Mathlib.Order.BooleanAlgebra.Set
import Hub11.Recovery.Repair

/-!
The descriptors that the rescue init opens.

What is assumed of the kernel is `Descriptors`: a call that opens something either fails or
takes a number that is not in use, `close` frees its number whatever it returns, and no
other call touches the set of open descriptors. Which number is taken does not matter, and
every call may fail. The kernel of the other modules is one such machine.

`Frees K p` says that `p` closes the descriptors in `K` and otherwise leaves the set as it
found it. A function that closes what it opens is `Frees ∅`.
-/

namespace Hub11.Recovery

open Hub11.Effect Hub11.Posix

/-- The calls that return a new descriptor. -/
def Opening : Syscall → Prop
  | .openat _ _ _ => True
  | .openConsole => True
  | _ => False

/-- The calls that neither open nor close a descriptor, `umount2` apart. -/
def Neutral : Syscall → Prop
  | .openat _ _ _ => False
  | .openConsole => False
  | .close _ => False
  | .umount2 _ => False
  | _ => True

/-- The discipline of descriptors, in the valid states of a machine. Nothing is said about which
number is taken or which call fails. -/
structure Descriptors {σ : Type} (M : Machine σ Syscall fun _ => Reply) (Valid : σ → Prop)
    (opened : σ → Set Nat) : Prop where
  valid : ∀ s op, Valid s → Valid (M s op).1
  opens : ∀ s op, Valid s → Opening op →
    ((M s op).2.ret < 0 ∧ opened (M s op).1 = opened s) ∨
      ∃ k : Nat, k ∉ opened s ∧ (M s op).2.ret = k ∧ opened (M s op).1 = insert k (opened s)
  closes : ∀ s fd, Valid s → opened (M s (.close fd)).1 = opened s \ {k | (k : Int) = fd}
  others : ∀ s op, Valid s → ¬ Opening op → (∀ fd, op ≠ .close fd) → opened (M s op).1 = opened s

section Frees

variable {σ : Type} {M : Machine σ Syscall fun _ => Reply} {Valid : σ → Prop}
  {opened : σ → Set Nat} {B : Set Nat} {α β : Type} {K L : Set Nat}

/-- At every `umount2` only descriptors in `B` are open. -/
def Unmountable (opened : σ → Set Nat) (B : Set Nat) (s : σ) (op : Syscall) : Prop :=
  ∀ target, op = .umount2 target → opened s ⊆ B

/-- The program closes `K`, and closes what it opens, from every valid state in which `K` is open.
At every `umount2` on the way only `B` is open. -/
def Frees (M : Machine σ Syscall fun _ => Reply) (Valid : σ → Prop) (opened : σ → Set Nat)
    (B K : Set Nat) (p : Sys α) : Prop :=
  ∀ s, Valid s → K ⊆ opened s → p.Upholds M (fun _ _ => True) (Unmountable opened B)
    (fun _ t => Valid t ∧ opened t = opened s \ K) s

theorem frees_pure (a : α) : Frees M Valid opened B ∅ (pure a : Sys α) :=
  fun _ hs _ => ⟨hs, Set.sdiff_empty.symm⟩

theorem Frees.bind {p : Sys α} {f : α → Sys β} (hp : Frees M Valid opened B K p)
    (hf : ∀ a, Frees M Valid opened B L (f a)) (hKL : ∀ k ∈ L, k ∉ K) :
    Frees M Valid opened B (K ∪ L) (p >>= f) := by
  intro s hs hsub
  refine Prog.Upholds.bind ((hp s hs (Set.subset_union_left.trans hsub)).mono fun a t ht => ?_)
  obtain ⟨hvalid, hopened⟩ := ht
  have hL : L ⊆ opened t := by
    rw [hopened]
    exact fun k hk => ⟨hsub (.inr hk), hKL k hk⟩
  refine (hf a t hvalid hL).mono fun b u hu => ⟨hu.1, ?_⟩
  rw [hu.2, hopened, sdiff_sdiff_left]
  rfl

/-- First something that leaves the descriptors alone. -/
theorem Frees.before {p : Sys α} {f : α → Sys β} (hp : Frees M Valid opened B ∅ p)
    (hf : ∀ a, Frees M Valid opened B K (f a)) : Frees M Valid opened B K (p >>= f) := by
  have h := hp.bind hf fun k _ => Set.notMem_empty k
  rwa [Set.empty_union] at h

/-- And then something that leaves them alone. -/
theorem Frees.after {p : Sys α} {f : α → Sys β} (hp : Frees M Valid opened B K p)
    (hf : ∀ a, Frees M Valid opened B ∅ (f a)) : Frees M Valid opened B K (p >>= f) := by
  have h := hp.bind hf fun k hk => (Set.notMem_empty k hk).elim
  rwa [Set.union_empty] at h

variable (D : Descriptors M Valid opened)

include D

theorem frees_perform (op : Syscall) (hop : Neutral op) :
    Frees M Valid opened B ∅ (Prog.perform op : Sys Reply) := by
  intro s hs _ _
  refine ⟨fun target h => by subst h; exact hop.elim, D.valid s op hs, ?_⟩
  have hopen : ¬ Opening op := fun h => by cases op <;> first | exact h | exact hop
  have hclose : ∀ fd, op ≠ .close fd := fun fd h => by subst h; exact hop
  rw [D.others s op hs hopen hclose, Set.sdiff_empty]

theorem frees_call (op : Syscall) (hop : Neutral op) : Frees M Valid opened B ∅ (call op) :=
  (frees_perform D op hop).before fun r => frees_pure r.ret

theorem frees_close (k : Nat) : Frees M Valid opened B {k} (call (.close k)) := by
  intro s hs _ _
  refine ⟨fun target h => Syscall.noConfusion h, D.valid s _ hs, ?_⟩
  rw [D.closes s _ hs]
  congr 1
  ext j
  exact Int.ofNat_inj

/-- Something is opened: it fails, or what follows has to close it. -/
theorem frees_open {op : Syscall} {f : Int → Sys β} (hop : Opening op)
    (hfail : ∀ r : Int, r < 0 → Frees M Valid opened B K (f r))
    (hok : ∀ k : Nat, k ∉ K → Frees M Valid opened B (K ∪ {k}) (f k)) :
    Frees M Valid opened B K (call op >>= f) := by
  intro s hs hsub _
  refine ⟨fun target h => by subst h; exact hop.elim, ?_⟩
  have hvalid := D.valid s op hs
  change (f (M s op).2.ret).Upholds M _ _ _ (M s op).1
  obtain ⟨hret, hopened⟩ | ⟨k, hk, hret, hopened⟩ := D.opens s op hs hop
  · refine (hfail _ hret _ hvalid (hopened ▸ hsub)).mono fun b t ht => ⟨ht.1, ?_⟩
    rw [ht.2, hopened]
  · have hkK : k ∉ K := fun h => hk (hsub h)
    rw [hret]
    refine (hok k hkK _ hvalid ?_).mono fun b t ht => ⟨ht.1, ?_⟩
    · rw [hopened, Set.union_singleton]
      exact Set.insert_subset_insert hsub
    · rw [ht.2, hopened]
      ext j
      by_cases hj : j = k
      · subst hj
        simp [hk]
      · simp [hj]

theorem frees_print (out : Int) (text : Text) : Frees M Valid opened B ∅ (print out text) :=
  (frees_call D (.puts out text) trivial).after fun _ => frees_pure ()

omit D in
theorem frees_forM {γ : Type} {f : γ → Sys Unit} (hf : ∀ c, Frees M Valid opened B ∅ (f c))
    (cs : List γ) : Frees M Valid opened B ∅ (cs.forM f) := by
  induction cs with
  | nil => exact frees_pure ()
  | cons c cs ih => exact (hf c).before fun _ => ih

theorem frees_printAll (out : Int) (texts : List String) :
    Frees M Valid opened B ∅ (printAll out texts) :=
  frees_forM (fun s => frees_print D out (.lit s)) texts

omit D in
theorem frees_onlyIf {c : Prop} [Decidable c] {p : Sys Unit} (hp : c → Frees M Valid opened B ∅ p) :
    Frees M Valid opened B ∅ (onlyIf c p) := by
  unfold onlyIf
  split
  · exact hp ‹_›
  · exact frees_pure ()

theorem frees_closeOpen (k : Nat) : Frees M Valid opened B {k} (closeOpen k) := by
  unfold closeOpen onlyIf
  rw [if_pos (Int.natCast_nonneg k)]
  exact (frees_close D k).after fun _ => frees_pure ()

omit D in
/-- Nothing was opened, nothing is closed. -/
theorem frees_closeOpen_neg {r : Int} (h : r < 0) : Frees M Valid opened B ∅ (closeOpen r) := by
  unfold closeOpen onlyIf
  rw [if_neg (not_le.mpr h)]
  exact frees_pure ()

/-! ### `copy_file` -/

theorem frees_copyLoop (inFd outFd : Int) (fuel : Nat) :
    Frees M Valid opened B ∅ (copyLoop fuel inFd outFd) := by
  induction fuel with
  | zero => exact fun _ _ _ => trivial
  | succ fuel ih =>
      refine (frees_perform D (.read inFd 4096) trivial).before fun r => ?_
      split
      · exact (frees_call D (.write outFd r.data) trivial).before fun _ => ih
      · exact frees_pure ()

theorem frees_copyFile (out : Int) (fuel : Nat) (src dst : Path) (srcText dstText : String) :
    Frees M Valid opened B ∅ (copyFile out fuel src dst srcText dstText) := by
  refine frees_open D trivial (fun r hr => ?_) fun i _ => ?_
  · rw [if_pos hr]
    exact frees_printAll D out _
  · rw [if_neg (not_lt.mpr (Int.natCast_nonneg i)), Set.empty_union]
    refine (frees_call D (.unlinkat AT_FDCWD dst false) trivial).before fun _ => ?_
    refine frees_open D trivial (fun r hr => ?_) fun o hio => ?_
    · rw [if_pos hr]
      refine (frees_printAll D out _).before fun _ => ?_
      exact (frees_close D i).after fun _ => frees_pure ()
    · rw [if_neg (not_lt.mpr (Int.natCast_nonneg o))]
      refine (frees_copyLoop D i o fuel).before fun _ => ?_
      refine (frees_close D i).bind (fun _ => ?_) fun k hk => hk ▸ hio
      exact (frees_close D o).after fun _ => frees_printAll D out _

/-! ### `merge_dir` -/

/-- Each of the two descriptors is closed exactly if it was opened. -/
theorem frees_mergeSubdir {recurse : Int → Int → Sys Unit}
    (hrec : ∀ src dst, Frees M Valid opened B ∅ (recurse src dst)) (srcFd dstFd : Int) (d : Comp) :
    Frees M Valid opened B ∅ (mergeSubdir recurse srcFd dstFd d) := by
  have hlast : Frees M Valid opened B ∅
      (call (.unlinkat srcFd ⟨false, [d]⟩ true) >>= fun _ => pure ()) :=
    (frees_call D (.unlinkat srcFd ⟨false, [d]⟩ true) trivial).before fun _ => frees_pure ()
  refine frees_open D trivial (fun src hsrc => ?_) fun src _ => ?_
  · refine (frees_call D (.mkdirat dstFd ⟨false, [d]⟩) trivial).before fun _ => ?_
    refine frees_open D trivial (fun dst hdst => ?_) fun dst _ => ?_
    · refine (frees_onlyIf fun _ => hrec src dst).before fun _ => ?_
      refine (frees_closeOpen_neg hsrc).before fun _ => ?_
      exact (frees_closeOpen_neg hdst).before fun _ => hlast
    · rw [Set.empty_union]
      refine (frees_onlyIf fun _ => hrec src dst).before fun _ => ?_
      refine (frees_closeOpen_neg hsrc).before fun _ => ?_
      exact (frees_closeOpen D dst).after fun _ => hlast
  · rw [Set.empty_union]
    refine (frees_call D (.mkdirat dstFd ⟨false, [d]⟩) trivial).before fun _ => ?_
    refine frees_open D trivial (fun dst hdst => ?_) fun dst hne => ?_
    · refine (frees_onlyIf fun _ => hrec src dst).before fun _ => ?_
      refine (frees_closeOpen D src).after fun _ => ?_
      exact (frees_closeOpen_neg hdst).before fun _ => hlast
    · refine (frees_onlyIf fun _ => hrec src dst).before fun _ => ?_
      refine (frees_closeOpen D src).bind (fun _ => ?_) fun k hk => hk ▸ hne
      exact (frees_closeOpen D dst).after fun _ => hlast

theorem frees_mergeEntry (out : Int) {recurse : Int → Int → Sys Unit}
    (hrec : ∀ src dst, Frees M Valid opened B ∅ (recurse src dst)) (srcFd dstFd : Int)
    (indent : String) (d : Comp) :
    Frees M Valid opened B ∅ (mergeEntry out recurse srcFd dstFd indent d) := by
  unfold mergeEntry
  split
  · refine (frees_print D out _).before fun _ => ?_
    refine (frees_print D out _).before fun _ => ?_
    refine (frees_print D out _).before fun _ => ?_
    refine (frees_call D (.renameat srcFd ⟨false, [d]⟩ dstFd ⟨false, [d]⟩) trivial).before
      fun r => ?_
    split
    · exact frees_print D out _
    · exact (frees_print D out _).before fun _ => frees_mergeSubdir D hrec srcFd dstFd d
  · exact frees_pure ()

/-- Every level of the recursion leaves the descriptors as it found them. -/
theorem frees_mergeDir (out : Int) (fuel : Nat) (srcFd dstFd : Int) (indent : String) :
    Frees M Valid opened B ∅ (mergeDir out fuel srcFd dstFd indent) := by
  induction fuel generalizing srcFd dstFd indent with
  | zero => exact fun _ _ _ => trivial
  | succ fuel ih =>
      refine (frees_perform D (.getdents64 srcFd 2048) trivial).before fun r => ?_
      split
      · refine Frees.before ?_ fun _ => ih srcFd dstFd indent
        exact frees_forM (frees_mergeEntry D out (fun s d => ih s d "    ") srcFd dstFd indent) _
      · exact frees_pure ()

/-! ### The phases of `_start` -/

theorem frees_mergeFrom (out : Int) (fuel srcFd : Nat) (dstLib : Int) :
    Frees M Valid opened B {srcFd} (mergeFrom out fuel srcFd dstLib) := by
  refine (frees_mergeDir D out fuel srcFd dstLib "").before fun _ => ?_
  exact (frees_close D srcFd).after fun _ => frees_pure ()

theorem frees_mergeLibOld (out : Int) (fuel : Nat) (dstLib : Int) :
    Frees M Valid opened B ∅ (mergeLibOld out fuel dstLib) := by
  refine frees_open D trivial (fun r hr => ?_) fun k _ => ?_
  · rw [if_neg (not_le.mpr hr)]
    exact frees_pure ()
  · rw [if_pos (Int.natCast_nonneg k), Set.empty_union]
    refine (frees_print D out _).before fun _ => ?_
    refine (frees_mergeFrom D out fuel k dstLib).after fun _ => ?_
    exact (frees_call D (.unlinkat AT_FDCWD (mntPath [nLibOld]) true) trivial).after
      fun _ => frees_pure ()

theorem frees_mergeLib (out : Int) (fuel : Nat) (dstLib : Int) :
    Frees M Valid opened B ∅ (mergeLib out fuel dstLib) := by
  have hlast : Frees M Valid opened B ∅
      (call (.unlinkat AT_FDCWD (mntPath [nLib]) true) >>= fun _ => pure ()) :=
    (frees_call D (.unlinkat AT_FDCWD (mntPath [nLib]) true) trivial).before fun _ => frees_pure ()
  refine (frees_perform D (.newfstatat AT_FDCWD (mntPath [nLib])) trivial).before fun st => ?_
  split
  · refine (frees_print D out _).before fun _ => ?_
    refine frees_open D trivial (fun r hr => ?_) fun k _ => ?_
    · exact (frees_onlyIf fun h => absurd h (not_le.mpr hr)).before fun _ => hlast
    · rw [Set.empty_union]
      unfold onlyIf
      rw [if_pos (Int.natCast_nonneg k)]
      exact (frees_mergeFrom D out fuel k dstLib).after fun _ => hlast
  · exact frees_pure ()

theorem frees_mergePhases (out : Int) (fuel : Nat) :
    Frees M Valid opened B ∅ (mergePhases out fuel) := by
  refine frees_open D trivial (fun r hr => ?_) fun k _ => ?_
  · refine (frees_mergeLibOld D out fuel r).before fun _ => ?_
    exact (frees_mergeLib D out fuel r).before fun _ => frees_closeOpen_neg hr
  · rw [Set.empty_union]
    refine (frees_mergeLibOld D out fuel k).before fun _ => ?_
    exact (frees_mergeLib D out fuel k).before fun _ => frees_closeOpen D k

theorem frees_ensureDirs : Frees M Valid opened B ∅ (ensureDirs : Sys Unit) := by
  have hmk : ∀ names, Frees M Valid opened B ∅ (call (.mkdirat AT_FDCWD (mntPath names))) :=
    fun names => frees_call D (.mkdirat AT_FDCWD (mntPath names)) trivial
  refine (hmk _).before fun _ => (hmk _).before fun _ => (hmk _).before fun _ => ?_
  exact (hmk _).before fun _ => (hmk _).before fun _ => frees_pure ()

theorem frees_waitForDisk (out : Int) (k : Nat) (ret : Int) :
    Frees M Valid opened B ∅ (waitForDisk out k ret) := by
  induction k generalizing ret with
  | zero => exact frees_pure ret
  | succ k ih =>
      refine (frees_call D (.mountDisk (absPath [nMnt])) trivial).before fun r => ?_
      split
      · exact frees_pure r
      · refine (frees_print D out _).before fun _ => Frees.before ?_ fun _ => ih r
        exact (frees_call D (.nanosleep 1) trivial).before fun _ => frees_pure ()

theorem frees_mountRootfs (out : Int) : Frees M Valid opened B ∅ (mountRootfs out) := by
  refine (frees_printAll D out _).before fun _ => ?_
  refine (frees_call D (.mkdirat AT_FDCWD (absPath [nMnt])) trivial).before fun _ => ?_
  exact (frees_print D out _).before fun _ => frees_waitForDisk D out 15 (-1)

theorem frees_mergeAll (out : Int) (fuel : Nat) : Frees M Valid opened B ∅ (mergeAll out fuel) := by
  refine (frees_print D out _).before fun _ => ?_
  exact (frees_ensureDirs D).before fun _ => frees_mergePhases D out fuel

theorem frees_restoreLink (n : Name) (target : Path) :
    Frees M Valid opened B ∅ (restoreLink n target) := by
  refine (frees_call D (.unlinkat AT_FDCWD (mntPath [n]) false) trivial).before fun _ => ?_
  refine (frees_call D (.unlinkat AT_FDCWD (mntPath [n]) true) trivial).before fun _ => ?_
  exact (frees_call D (.symlinkat target AT_FDCWD (mntPath [n])) trivial).before
    fun _ => frees_pure ()

theorem frees_restoreSymlinks (out : Int) : Frees M Valid opened B ∅ (restoreSymlinks out) := by
  refine (frees_print D out _).before fun _ => ?_
  exact (frees_restoreLink D nLib _).before fun _ => frees_restoreLink D nLib64 _

theorem frees_installLinkers (out : Int) (fuel : Nat) :
    Frees M Valid opened B ∅ (installLinkers out fuel) := by
  refine (frees_print D out _).before fun _ => ?_
  refine (frees_copyFile D out fuel _ _ _ _).before fun _ => ?_
  refine (frees_copyFile D out fuel _ _ _ _).before fun _ => ?_
  refine (frees_copyFile D out fuel _ _ _ _).before fun _ => ?_
  refine (frees_call D (.symlinkat _ AT_FDCWD _) trivial).before fun _ => ?_
  exact (frees_call D (.symlinkat _ AT_FDCWD _) trivial).before fun _ => frees_pure ()

theorem frees_verifyLinker (out : Int) : Frees M Valid opened B ∅ (verifyLinker out) := by
  refine (frees_print D out _).before fun _ => ?_
  refine frees_open D trivial (fun r hr => ?_) fun k _ => ?_
  · rw [if_neg (not_le.mpr hr)]
    exact frees_print D out _
  · rw [if_pos (Int.natCast_nonneg k), Set.empty_union]
    refine (frees_print D out _).before fun _ => ?_
    exact (frees_close D k).after fun _ => frees_pure ()

/-! ### The whole run -/

omit D in
/-- What leaves the descriptors alone may stand in front. -/
theorem Frees.andThen {p : Sys α} {f : α → Sys β} {Q : β → σ → Prop} {s : σ}
    (hp : Frees M Valid opened B ∅ p) (hs : Valid s) (hB : opened s ⊆ B)
    (hf : ∀ a t, Valid t → opened t ⊆ B →
      (f a).Upholds M (fun _ _ => True) (Unmountable opened B) Q t) :
    (p >>= f).Upholds M (fun _ _ => True) (Unmountable opened B) Q s := by
  refine Prog.Upholds.bind ((hp s hs (Set.empty_subset _)).mono fun a t ht => hf a t ht.1 ?_)
  rw [ht.2, Set.sdiff_empty]
  exact hB

theorem upholds_finish (out : Int) {s : σ} (hs : Valid s) (hB : opened s ⊆ B) :
    (finish out).Upholds M (fun _ _ => True) (Unmountable opened B) (fun _ _ => True) s := by
  refine (frees_print D out _).andThen hs hB fun _ t ht htB => ?_
  refine (frees_call D .sync trivial).andThen ht htB fun _ u hu huB => ?_
  refine (frees_print D out _).andThen hu huB fun _ v hv hvB _ => ⟨fun _ _ => hvB, ?_⟩
  have hrest : Frees M Valid opened B ∅
      (call .sync >>= fun _ => printAll out closingLines) :=
    (frees_call D .sync trivial).before fun _ => frees_printAll D out _
  exact (hrest _ (D.valid _ _ hv) (Set.empty_subset _)).mono fun _ _ _ => trivial

end Frees

/-- The descriptors that a run of `_start` is given for `/dev/console`. -/
def consoleFds {σ : Type} (M : Machine σ Syscall fun _ => Reply) (fuel : Nat) (s : σ) : Set Nat :=
  {k | ∃ r : Reply, ⟨.openConsole, r⟩ ∈ (start fuel).events M s ∧ r.ret = k}

section Run

variable {σ : Type} {M : Machine σ Syscall fun _ => Reply} {Valid : σ → Prop}
  {opened : σ → Set Nat} (D : Descriptors M Valid opened)

include D

theorem upholds_start (fuel : Nat) {s : σ} (hs : Valid s) :
    (start fuel).Upholds M (fun _ _ => True)
      (Unmountable opened (opened s ∪ consoleFds M fuel s)) (fun _ _ => True) s := by
  have hcall : ∀ op, Neutral op → ∀ t, Valid t → opened (M t op).1 = opened t := by
    intro op hop t ht
    have h := ((frees_perform (B := Set.univ) D op hop t ht (Set.empty_subset _)) trivial).2
    exact h.2.trans Set.sdiff_empty
  let s₁ := (M s (.mkdirat AT_FDCWD (absPath [nDev]))).1
  let s₂ := (M s₁ .mountDevtmpfs).1
  have hs₁ : Valid s₁ := D.valid _ _ hs
  have hs₂ : Valid s₂ := D.valid _ _ hs₁
  have hopened₂ : opened s₂ = opened s :=
    (hcall .mountDevtmpfs trivial s₁ hs₁).trans (hcall (.mkdirat _ _) trivial s hs)
  have hconsole : opened (M s₂ .openConsole).1 ⊆ opened s ∪ consoleFds M fuel s := by
    obtain ⟨-, hsame⟩ | ⟨k, -, hret, hopened⟩ := D.opens s₂ .openConsole hs₂ trivial
    · rw [hsame, hopened₂]
      exact Set.subset_union_left
    · rw [hopened, hopened₂]
      refine Set.insert_subset (.inr ⟨(M s₂ .openConsole).2, ?_, hret⟩) Set.subset_union_left
      exact List.mem_cons_of_mem _ (List.mem_cons_of_mem _ List.mem_cons_self)
  refine fun _ => ⟨fun _ h => Syscall.noConfusion h, fun _ => ⟨fun _ h => Syscall.noConfusion h,
    fun _ => ⟨fun _ h => Syscall.noConfusion h, ?_⟩⟩⟩
  refine (frees_mountRootfs D _).andThen (D.valid _ _ hs₂) hconsole fun ret t ht htB => ?_
  split
  · exact (frees_printAll D _ _).andThen ht htB fun _ _ _ _ => trivial
  · refine (frees_mergeAll D _ fuel).andThen ht htB fun _ u hu huB => ?_
    refine Prog.Upholds.bind (Q := fun _ _ => True) ?_
    refine (frees_restoreSymlinks D _).andThen hu huB fun _ v hv hvB => ?_
    refine (frees_installLinkers D _ fuel).andThen hv hvB fun _ x hx hxB => ?_
    refine (frees_verifyLinker D _).andThen hx hxB fun _ y hy hyB => ?_
    exact (upholds_finish D _ hy hyB).mono fun _ _ _ => trivial

/-- `merge_dir` returns with the descriptors it was called with, and at every `umount2` of a
run of `_start` nothing that the run has opened is open any more, the console apart. -/
theorem descriptors_balanced {s : σ} (hs : Valid s) :
    (∀ out fuel srcFd dstFd indent t,
      (mergeDir out fuel srcFd dstFd indent).run M s = (some (), t) → opened t = opened s) ∧
    ∀ fuel, ∀ u ∈ (start fuel).steps M s, ∀ target, u.2 = .umount2 target →
      opened u.1 ⊆ opened s ∪ consoleFds M fuel s := by
  constructor
  · intro out fuel srcFd dstFd indent t hrun
    have hfrees := frees_mergeDir (B := Set.univ) D out fuel srcFd dstFd indent
    have h := (hfrees s hs (Set.empty_subset _)).run (fun _ _ => trivial) hrun
    exact h.2.trans Set.sdiff_empty
  · intro fuel u hu
    exact (upholds_start D fuel hs).steps (fun _ _ => trivial) u hu

end Run

/-! ### The kernel of the other modules -/

/-- The numbers in use. -/
def openFds (w : World) : Set Nat := {k | w.fds k ≠ none}

/-- Numbers from `nextFd` on are not in use. -/
def FdsBounded (w : World) : Prop := ∀ k, w.nextFd ≤ k → w.fds k = none

theorem openFds_setDesc (w : World) (fd : Int) :
    openFds (w.setDesc fd none) = openFds w \ {k | (k : Int) = fd} := by
  ext k
  by_cases h : fd = k
  · simp [openFds, World.setDesc, h]
  · simp [openFds, World.setDesc, h, Ne.symm h]

/-- A call that opens something takes the next number. -/
theorem exec_opening {env : Env} {w w' : World} {op : Syscall} {r : Reply} (hop : Opening op)
    (h : w.exec env op = .ok (w', r)) :
    ∃ (v : World) (desc : Desc), v.fds = w.fds ∧ v.nextFd = w.nextFd ∧
      (w', r) = v.openDesc desc := by
  cases op with
  | openConsole =>
      simp only [World.exec] at h
      split at h
      · exact ⟨w, .console, rfl, rfl, (Except.ok.inj h).symm⟩
      · cases h
  | openat fd path flags =>
      simp only [World.exec, World.openPath] at h
      split at h
      · rename_i i _
        unfold World.openNode at h
        split at h
        · split at h
          · cases h
          · cases h
          · exact ⟨w, _, rfl, rfl, (Except.ok.inj h).symm⟩
        · split at h
          · cases h
          · split at h
            · exact ⟨w, _, rfl, rfl, (Except.ok.inj h).symm⟩
            · cases h
          · exact ⟨w, _, rfl, rfl, (Except.ok.inj h).symm⟩
          · exact ⟨{ w with fs := w.fs.setData i [] }, _, rfl, rfl, (Except.ok.inj h).symm⟩
        · cases h
        · cases h
      · rename_i d n _
        split at h
        · cases hfs : w.fs.create d n (.file []) with
          | error e =>
              rw [hfs] at h
              cases h
          | ok fs =>
              rw [hfs] at h
              exact ⟨{ w with fs := fs }, _, rfl, rfl, (Except.ok.inj h).symm⟩
        · cases h
      · cases h
  | _ => exact hop.elim

/-- The kernel follows the discipline: no outcome of a call but an open and a `close` changes the
set of open descriptors. -/
theorem openFds_of_outcome {env : Env} {w w' : World} {op : Syscall} (h : Outcome env w op w')
    (hopen : ¬ Opening op) (hclose : ∀ fd, op ≠ .close fd) : openFds w' = openFds w := by
  have hset : ∀ (v : World) (fd : Int) (x y : Desc), v.fds = w.fds → w.desc fd = some x →
      openFds (v.setDesc fd (some y)) = openFds w := by
    intro v fd x y hv hfd
    ext k
    by_cases hk : fd = k
    · subst hk
      have hx : w.fds k = some x := hfd
      simp [openFds, World.setDesc, hx]
    · simp [openFds, World.setDesc, hk, hv]
  cases h with
  | console => exact absurd trivial hopen
  | openDir => exact absurd trivial hopen
  | openFile => exact absurd trivial hopen
  | openTrunc => exact absurd trivial hopen
  | openNew => exact absurd trivial hopen
  | listed hfd => exact hset w _ _ _ rfl hfd
  | read hfd => exact hset w _ _ _ rfl hfd
  | write hfd hdata => exact hset { w with fs := _ } _ _ _ rfl hfd
  | close => exact absurd rfl (hclose _)
  | _ => rfl

/-- Every call keeps the numbers from `nextFd` on free, so that a new descriptor is one that was not
in use. -/
theorem fdsBounded_of_outcome {env : Env} {w w' : World} {op : Syscall}
    (h : Outcome env w op w') (hw : FdsBounded w) : FdsBounded w' := by
  have hopen : ∀ (v : World) (x : Desc), v.fds = w.fds → v.nextFd = w.nextFd →
      FdsBounded (v.openDesc x).1 := by
    intro v x hfds hnext k hk
    have hlt : w.nextFd < k := by
      rw [← hnext]
      exact hk
    have hne : k ≠ v.nextFd := by omega
    simp only [World.openDesc, hne, if_false, hfds]
    exact hw k hlt.le
  have hset : ∀ (v : World) (fd : Int) (x : Desc) (y : Option Desc), v.fds = w.fds →
      v.nextFd = w.nextFd → w.desc fd = some x → FdsBounded (v.setDesc fd y) := by
    intro v fd x y hfds hnext hfd k hk
    have hnone : w.fds k = none := hw k (hnext ▸ hk)
    have hne : fd ≠ k := by
      rintro rfl
      cases hnone.symm.trans hfd
    simp only [World.setDesc, hne, if_false, hfds]
    exact hnone
  cases h with
  | console => exact hopen w _ rfl rfl
  | openDir => exact hopen w _ rfl rfl
  | openFile => exact hopen w _ rfl rfl
  | openTrunc => exact hopen { w with fs := _ } _ rfl rfl
  | openNew => exact hopen { w with fs := _ } _ rfl rfl
  | listed hfd => exact hset w _ _ _ rfl rfl hfd
  | read hfd => exact hset w _ _ _ rfl rfl hfd
  | write hfd hdata => exact hset { w with fs := _ } _ _ _ rfl rfl hfd
  | close =>
      intro k hk
      simp only [World.setDesc]
      split
      · rfl
      · exact hw k hk
  | _ => exact hw

/-- Where a failing `close` frees its descriptor, the kernel keeps the discipline. -/
theorem kernel_descriptors {env : Env} (hno : ∀ t, env.choices.leak t = false) :
    Descriptors (kernel env) FdsBounded openFds where
  valid := by
    intro w op hw
    obtain ⟨w', h, heq⟩ := kernel_outcome env w op
    rw [heq]
    have hbounded : FdsBounded w' := fdsBounded_of_outcome h hw
    exact hbounded
  opens := by
    intro w op hw hop
    have hrefused : w.refused env op = w := by
      cases op with
      | close => exact hop.elim
      | _ => rfl
    unfold kernel
    cases hatt : w.attempt env op with
    | error e =>
        refine .inl ⟨e.neg_lt, ?_⟩
        rw [hrefused]
        rfl
    | ok res =>
        obtain ⟨w', r⟩ := res
        have hexec : w.exec env op = .ok (w', r) := by
          unfold World.attempt at hatt
          split at hatt
          · cases hatt
          · exact hatt
        obtain ⟨v, x, hfds, hnext, heq⟩ := exec_opening hop hexec
        cases heq
        refine .inr ⟨w.nextFd, fun h => h (hw _ (Nat.le_refl _)), by rw [hnext], ?_⟩
        ext k
        by_cases hk : k = w.nextFd <;> simp [openFds, hk, hnext, hfds]
  closes := by
    intro w fd _
    unfold kernel
    cases hatt : w.attempt env (.close fd) with
    | error e =>
        have hfreed : w.refused env (.close fd) = w.setDesc fd none := by
          simp [World.refused, hno]
        rw [hfreed]
        exact openFds_setDesc w fd
    | ok res =>
        unfold World.attempt at hatt
        split at hatt
        · cases hatt
        · simp only [World.exec] at hatt
          split at hatt
          · cases hatt
            exact openFds_setDesc w fd
          · cases hatt
  others := by
    intro w op hw hopen hclose
    obtain ⟨w', h, heq⟩ := kernel_outcome env w op
    rw [heq]
    have hopened : openFds w' = openFds w := openFds_of_outcome h hopen hclose
    exact hopened

/-- From `w` on, the kernel's descriptors are balanced: over each call of `merge_dir` that returns,
and at each `umount2` of a run of `_start`. -/
def Balances (env : Env) (w : World) : Prop :=
  (∀ out fuel srcFd dstFd indent w',
    (mergeDir out fuel srcFd dstFd indent).run (kernel env) w = (some (), w') →
      openFds w' = openFds w) ∧
  ∀ fuel, ∀ u ∈ (start fuel).steps (kernel env) w, ∀ target, u.2 = .umount2 target →
    openFds u.1 ⊆ openFds w ∪ consoleFds (kernel env) fuel w

theorem descriptors_balanced_sample : Balances patientEnv (freshWorld strayLibs) :=
  descriptors_balanced (kernel_descriptors fun _ => rfl) fun _ _ => rfl

end Hub11.Recovery
