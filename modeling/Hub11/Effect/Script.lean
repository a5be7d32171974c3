import Hub11.Effect.Program

/-!
Scripts: programs of commands that stop at the first command that fails.

A command replies `none` when it fails. `must` is a command under `set -e`, `attempt` a
command whose failure the script looks at itself. What a command does depends on a choice
as well as on the state: it goes through, fails half way, or never starts. `after` takes
one step for each choice of a list, so a statement about all lists is one about every
pattern of failures, and about runs that are cut off anywhere.

A guard `G` restricts the choices, `Anything` does not. `Always` is the invariant rule for
all runs at once: the invariant holds in every state, and the postcondition holds if the
program comes to its end.
-/

namespace Hub11.Effect

/-- A machine whose transitions depend on a choice, which stands for everything that the program has
no hand in: a failure, a cut, the contents of an archive. -/
abbrev Chooser (γ σ ι : Type) (ρ : ι → Type) := γ → Machine σ ι ρ

/-- A condition on single steps: on the choice, the state before and the operation. It restricts
what may go wrong in a run. -/
abbrev Guard (γ σ ι : Type) := γ → σ → ι → Prop

/-- Every step is allowed. -/
def Anything {γ σ ι : Type} : Guard γ σ ι := fun _ _ _ => True

/-- A program of commands in which a failure ends everything, as under `set -e`. A command that
fails replies `none`. -/
abbrev Script (ι : Type) (β : ι → Type) (α : Type) := OptionT (Prog ι fun op => Option (β op)) α

namespace Script

variable {ι : Type} {β : ι → Type} {α : Type}

/-- A command that has to succeed. Where it fails the script ends, in the state that the command has
left behind. -/
def must (op : ι) : Script ι β (β op) := OptionT.mk (Prog.perform op)

/-- A command whose failure the script looks at itself, as in `if cmd` or `cmd || true`. -/
def attempt (op : ι) : Script ι β (Option (β op)) := OptionT.mk (.call op fun r => .ret (some r))

/-- `exit 1` -/
def abort : Script ι β α := OptionT.mk (.ret none)

/-- A test that ends the script if it fails. -/
def check (c : Prop) [Decidable c] : Script ι β Unit := if c then pure () else abort

/-- `for x in xs` -/
def forEach {κ : Type} (f : κ → Script ι β Unit) : List κ → Script ι β Unit
  | [] => pure ()
  | x :: xs => do
      f x
      forEach f xs

end Script

namespace Prog

variable {γ σ ι : Type} {ρ : ι → Type} {α β : Type}

/-- The rest of the program and the state after one step for each choice. -/
def after (M : Chooser γ σ ι ρ) : List γ → Prog ι ρ α → σ → Prog ι ρ α × σ
  | c :: cs, .call op next, s => (next (M c s op).2).after M cs (M c s op).1
  | _, p, s => (p, s)

/-- All these steps meet the condition. -/
def Meets (M : Chooser γ σ ι ρ) (G : Guard γ σ ι) : List γ → Prog ι ρ α → σ → Prop
  | c :: cs, .call op next, s => G c s op ∧ (next (M c s op).2).Meets M G cs (M c s op).1
  | _, _, _ => True

/-- Choices that are always allowed. -/
theorem meets_of_forall {M : Chooser γ σ ι ρ} {G : Guard γ σ ι} {cs : List γ}
    (h : ∀ c ∈ cs, ∀ s op, G c s op) (p : Prog ι ρ α) (s : σ) : p.Meets M G cs s := by
  induction cs generalizing p s with
  | nil => cases p <;> trivial
  | cons c cs ih =>
      cases p with
      | ret a => trivial
      | spent => trivial
      | call op next =>
          exact ⟨h c List.mem_cons_self s op, ih (fun d hd => h d (List.mem_cons_of_mem c hd)) _ _⟩

theorem meets_anything (M : Chooser γ σ ι ρ) (cs : List γ) (p : Prog ι ρ α) (s : σ) :
    p.Meets M Anything cs s :=
  meets_of_forall (fun _ _ _ _ => trivial) p s

/-- Some run of the program comes to the state `t`, whether it ends there or not. -/
def Reaches (M : Chooser γ σ ι ρ) (G : Guard γ σ ι) (p : Prog ι ρ α) (s t : σ) : Prop :=
  ∃ cs, p.Meets M G cs s ∧ (p.after M cs s).2 = t

/-- Some run of the program ends with the value `a` in the state `t`. -/
def Ends (M : Chooser γ σ ι ρ) (G : Guard γ σ ι) (p : Prog ι ρ α) (s : σ) (a : α) (t : σ) : Prop :=
  ∃ cs, p.Meets M G cs s ∧ p.after M cs s = (.ret a, t)

theorem Ends.reaches {M : Chooser γ σ ι ρ} {G : Guard γ σ ι} {p : Prog ι ρ α} {s t : σ} {a : α}
    (h : p.Ends M G s a t) : p.Reaches M G s t := by
  obtain ⟨cs, hmeets, hafter⟩ := h
  exact ⟨cs, hmeets, by rw [hafter]⟩

/-- Some run of the program comes to the state `t`, with `q` left to do. Runs are put together at
such points. -/
def Leads (M : Chooser γ σ ι ρ) (G : Guard γ σ ι) (p : Prog ι ρ α) (s : σ) (q : Prog ι ρ α)
    (t : σ) : Prop :=
  ∃ cs, p.Meets M G cs s ∧ p.after M cs s = (q, t)

namespace Leads

variable {M : Chooser γ σ ι ρ} {G : Guard γ σ ι} {s t u : σ} {p q r : Prog ι ρ α}

theorem refl (p : Prog ι ρ α) (s : σ) : p.Leads M G s p s :=
  ⟨[], by cases p <;> trivial, by cases p <;> rfl⟩

theorem call {op : ι} {next : ρ op → Prog ι ρ α} (c : γ) (hc : G c s op)
    (h : (next (M c s op).2).Leads M G (M c s op).1 q t) : (Prog.call op next).Leads M G s q t := by
  obtain ⟨cs, hcs, hafter⟩ := h
  exact ⟨c :: cs, ⟨hc, hcs⟩, hafter⟩

theorem trans (hpq : p.Leads M G s q t) (hqr : q.Leads M G t r u) : p.Leads M G s r u := by
  obtain ⟨cs, hcs, hafter⟩ := hpq
  induction cs generalizing p s with
  | nil =>
      have hstart : p.after M [] s = (p, s) := by cases p <;> rfl
      rw [hstart] at hafter
      cases hafter
      exact hqr
  | cons c cs ih =>
      cases p with
      | ret a =>
          cases hafter
          exact hqr
      | spent =>
          cases hafter
          exact hqr
      | call op next => exact .call c hcs.1 (ih hcs.2 hafter)

theorem bind {f : α → Prog ι ρ β} (h : p.Leads M G s q t) : (p >>= f).Leads M G s (q >>= f) t := by
  obtain ⟨cs, hcs, hafter⟩ := h
  induction cs generalizing p s with
  | nil =>
      have hstart : p.after M [] s = (p, s) := by cases p <;> rfl
      rw [hstart] at hafter
      cases hafter
      exact refl (q >>= f) t
  | cons c cs ih =>
      cases p with
      | ret a =>
          cases hafter
          exact refl _ t
      | spent =>
          cases hafter
          exact refl _ t
      | call op next => exact .call c hcs.1 (ih hcs.2 hafter)

end Leads

/-- Whatever is chosen, `J` holds in every state that a run passes through, and `Q` at the end. It
follows the program's syntax, so that there is one rule for each construct. -/
def Always (M : Chooser γ σ ι ρ) (G : Guard γ σ ι) (J : σ → Prop) (Q : α → σ → Prop) :
    Prog ι ρ α → σ → Prop
  | .ret a, s => J s ∧ Q a s
  | .spent, s => J s
  | .call op next, s => J s ∧ ∀ c, G c s op → (next (M c s op).2).Always M G J Q (M c s op).1

namespace Always

variable {M : Chooser γ σ ι ρ} {G : Guard γ σ ι} {J : σ → Prop} {Q : α → σ → Prop} {s : σ}

theorem start {p : Prog ι ρ α} (h : p.Always M G J Q s) : J s := by
  cases p with
  | ret a => exact h.1
  | spent => exact h
  | call op next => exact h.1

theorem mono {p : Prog ι ρ α} {R : α → σ → Prop} (h : p.Always M G J Q s)
    (weaken : ∀ a t, J t → Q a t → R a t) : p.Always M G J R s := by
  induction p generalizing s with
  | ret a => exact ⟨h.1, weaken a s h.1 h.2⟩
  | spent => exact h
  | call op next ih => exact ⟨h.1, fun c hc => ih _ (h.2 c hc)⟩

theorem weaken {p : Prog ι ρ α} {I : σ → Prop} (h : p.Always M G J Q s)
    (hI : ∀ t, J t → I t) : p.Always M G I Q s := by
  induction p generalizing s with
  | ret a => exact ⟨hI s h.1, h.2⟩
  | spent => exact hI s h
  | call op next ih => exact ⟨hI s h.1, fun c hc => ih _ (h.2 c hc)⟩

theorem bind {p : Prog ι ρ α} {f : α → Prog ι ρ β} {R : β → σ → Prop}
    (h : p.Always M G J (fun a t => (f a).Always M G J R t) s) : (p >>= f).Always M G J R s := by
  induction p generalizing s with
  | ret a => exact h.2
  | spent => exact h
  | call op next ih => exact ⟨h.1, fun c hc => ih _ (h.2 c hc)⟩

/-- What always holds of a program holds of the rest of it. -/
theorem after {p : Prog ι ρ α} (h : p.Always M G J Q s) {cs : List γ} (hcs : p.Meets M G cs s) :
    (p.after M cs s).1.Always M G J Q (p.after M cs s).2 := by
  induction cs generalizing p s with
  | nil => cases p <;> exact h
  | cons c cs ih =>
      cases p with
      | ret a => exact h
      | spent => exact h
      | call op next => exact ih (h.2 c hcs.1) hcs.2

theorem reaches {p : Prog ι ρ α} (h : p.Always M G J Q s) {t : σ} (ht : p.Reaches M G s t) :
    J t := by
  obtain ⟨cs, hcs, rfl⟩ := ht
  exact (h.after hcs).start

theorem ends {p : Prog ι ρ α} (h : p.Always M G J Q s) {a : α} {t : σ} (ht : p.Ends M G s a t) :
    Q a t := by
  obtain ⟨cs, hcs, hafter⟩ := ht
  have := h.after hcs
  rw [hafter] at this
  exact this.2

end Always

/-- A program all of whose commands keep an invariant keeps it. -/
theorem Issues.always {M : Chooser γ σ ι ρ} {G : Guard γ σ ι} {P : ι → Prop} {J : σ → Prop}
    {p : Prog ι ρ α} (hp : p.Issues P) (keep : ∀ c s op, G c s op → P op → J s → J (M c s op).1)
    {s : σ} (hs : J s) : p.Always M G J (fun _ _ => True) s := by
  induction p generalizing s with
  | ret a => exact ⟨hs, trivial⟩
  | spent => exact hs
  | call op next ih => exact ⟨hs, fun c hc => ih _ (hp.2 _) (keep c s op hc hp.1 hs)⟩

/-- A program that only issues operations that change nothing. -/
theorem Issues.always_unchanged {M : Chooser γ σ ι ρ} {G : Guard γ σ ι} {P : ι → Prop}
    {J : σ → Prop} {p : Prog ι ρ α} (hp : p.Issues P) (keep : ∀ c s op, P op → (M c s op).1 = s)
    {s : σ} (hs : J s) : p.Always M G J (fun _ t => t = s) s := by
  induction p with
  | ret a => exact ⟨hs, rfl⟩
  | spent => exact hs
  | call op next ih =>
      refine ⟨hs, fun c _ => ?_⟩
      rw [keep c s op hp.1]
      exact ih _ (hp.2 _)

end Prog

namespace Script

variable {γ σ ι : Type} {β : ι → Type} {α δ : Type} {M : Chooser γ σ ι fun op => Option (β op)}
  {G : Guard γ σ ι} {J : σ → Prop} {Q : Option α → σ → Prop} {s : σ}

/-- The rule for a command under `set -e`: the invariant holds where it fails, and the rest is shown
from where it succeeds. -/
theorem always_must {op : ι} {f : β op → Script ι β α} (hJ : J s)
    (hfail : ∀ c, G c s op → (M c s op).2 = none → J (M c s op).1 ∧ Q none (M c s op).1)
    (hok : ∀ c b, G c s op → (M c s op).2 = some b → (f b).run.Always M G J Q (M c s op).1) :
    (must op >>= f).run.Always M G J Q s := by
  refine ⟨hJ, fun c hc => ?_⟩
  cases hr : (M c s op).2 with
  | none => exact hfail c hc hr
  | some b => exact hok c b hc hr

/-- A single command. -/
theorem always_command {op : ι} {Q : Option (β op) → σ → Prop} (hJ : J s)
    (h : ∀ c, G c s op → J (M c s op).1 ∧ Q (M c s op).2 (M c s op).1) :
    (must op).run.Always M G J Q s :=
  ⟨hJ, h⟩

theorem always_attempt {op : ι} {f : Option (β op) → Script ι β α} (hJ : J s)
    (h : ∀ c, G c s op → (f (M c s op).2).run.Always M G J Q (M c s op).1) :
    (attempt op >>= f).run.Always M G J Q s :=
  ⟨hJ, h⟩

theorem always_check {c : Prop} [Decidable c] {f : Unit → Script ι β α} (hJ : J s)
    (hfail : ¬ c → Q none s) (hok : c → (f ()).run.Always M G J Q s) :
    (check c >>= f).run.Always M G J Q s := by
  unfold check
  by_cases hc : c
  · rw [if_pos hc]
    exact hok hc
  · rw [if_neg hc]
    exact ⟨hJ, hfail hc⟩

/-- The rule for sequences: the postcondition of the first program is what the second one starts
from. -/
theorem always_bind {p : Script ι β δ} {f : δ → Script ι β α}
    (h : p.run.Always M G J (fun r t => match r with
      | some d => (f d).run.Always M G J Q t
      | none => Q none t) s) : (p >>= f).run.Always M G J Q s := by
  refine Prog.Always.bind (h.mono fun r t hJ hr => ?_)
  cases r with
  | none => exact ⟨hJ, hr⟩
  | some d => exact hr

/-- The rule for `||`: the second program starts where the first one has failed. -/
theorem always_orElse {p q : Script ι β α}
    (h : p.run.Always M G J (fun r t => match r with
      | some a => Q (some a) t
      | none => q.run.Always M G J Q t) s) : (p <|> q).run.Always M G J Q s := by
  refine Prog.Always.bind (h.mono fun r t hJ hr => ?_)
  cases r with
  | none => exact hr
  | some a => exact ⟨hJ, hr⟩

theorem always_forEach {κ : Type} {f : κ → Script ι β Unit} {K : List κ → σ → Prop}
    {Q : Option Unit → σ → Prop} (hnil : ∀ t, J t → K [] t → Q (some ()) t)
    (hcons : ∀ x xs t, J t → K (x :: xs) t → (f x).run.Always M G J (fun r u => match r with
      | some _ => K xs u
      | none => Q none u) t) {xs : List κ} (hJ : J s) (hK : K xs s) :
    (forEach f xs).run.Always M G J Q s := by
  induction xs generalizing s with
  | nil => exact ⟨hJ, hnil s hJ hK⟩
  | cons x xs ih =>
      refine always_bind ((hcons x xs s hJ hK).mono fun r t hJ hr => ?_)
      cases r with
      | none => exact hr
      | some _ => exact ih hJ hr

/-- A command that succeeds. -/
theorem leads_must {op : ι} {f : β op → Script ι β α} (c : γ) {b : β op} {t u : σ}
    {q : Prog ι (fun op => Option (β op)) (Option α)} (hc : G c s op) (hstep : M c s op = (t, some b))
    (h : (f b).run.Leads M G t q u) : (must op >>= f).run.Leads M G s q u := by
  refine .call c hc ?_
  rw [hstep]
  exact h

theorem leads_check {c : Prop} [Decidable c] {f : Unit → Script ι β α} {u : σ}
    {q : Prog ι (fun op => Option (β op)) (Option α)} (hc : c) (h : (f ()).run.Leads M G s q u) :
    (check c >>= f).run.Leads M G s q u := by
  rw [check, if_pos hc]
  exact h

theorem leads_last {c : Prop} [Decidable c] (hc : c) :
    (check c : Script ι β Unit).run.Leads M G s (.ret (some ())) s := by
  rw [check, if_pos hc]
  exact .refl _ s

theorem leads_bind {p : Script ι β δ} {f : δ → Script ι β α} {d : δ} {t u : σ}
    {q : Prog ι (fun op => Option (β op)) (Option α)} (hp : p.run.Leads M G s (.ret (some d)) t)
    (h : (f d).run.Leads M G t q u) : (p >>= f).run.Leads M G s q u :=
  hp.bind.trans h

theorem issues_must {P : ι → Prop} {op : ι} {f : β op → Script ι β α} (hop : P op)
    (hf : ∀ b, (f b).run.Issues P) : (must op >>= f).run.Issues P := by
  refine ⟨hop, fun r => ?_⟩
  cases r with
  | none => trivial
  | some b => exact hf b

theorem issues_attempt {P : ι → Prop} {op : ι} {f : Option (β op) → Script ι β α} (hop : P op)
    (hf : ∀ r, (f r).run.Issues P) : (attempt op >>= f).run.Issues P :=
  ⟨hop, hf⟩

theorem issues_bind {P : ι → Prop} {p : Script ι β δ} {f : δ → Script ι β α}
    (hp : p.run.Issues P) (hf : ∀ d, (f d).run.Issues P) : (p >>= f).run.Issues P := by
  refine Prog.Issues.bind hp fun r => ?_
  cases r with
  | none => trivial
  | some d => exact hf d

theorem issues_forEach {κ : Type} {P : ι → Prop} {f : κ → Script ι β Unit} (xs : List κ)
    (hf : ∀ x, (f x).run.Issues P) : (forEach f xs).run.Issues P := by
  induction xs with
  | nil => trivial
  | cons x xs ih => exact issues_bind (hf x) fun _ => ih

theorem issues_check {P : ι → Prop} {c : Prop} [Decidable c] {f : Unit → Script ι β α}
    (hf : (f ()).run.Issues P) : (check c >>= f).run.Issues P := by
  unfold check
  split
  · exact hf
  · trivial

/-- A test at the end. -/
theorem issues_last {P : ι → Prop} (c : Prop) [Decidable c] :
    (check c : Script ι β Unit).run.Issues P := by
  unfold check
  split
  · trivial
  · trivial

end Script

end Hub11.Effect
