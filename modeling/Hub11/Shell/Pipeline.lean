import Mathlib.Data.List.DropRight
import Mathlib.Data.List.Dedup
import Mathlib.Data.Char

/-!
Text tools of the shell: `cut -d/ -f1`, `sort -u` and what `$(…)` makes of an output.

A text is a list of characters. Tools that work on lines are functions on lists of
lines, and `unlines` is the output they print.
-/

namespace Hub11.Shell

abbrev Text := List Char

/-- Lines as they are printed, each with its newline. -/
def unlines (lines : List Text) : Text := lines.flatMap fun l => l ++ ['\n']

/-- The value of `$(…)`: the output without the newlines at its end. Newlines inside stay. -/
def substitution (output : Text) : Text := output.rdropWhile (· = '\n')

/-- `cut -d/ -f1` on one line. -/
def cutFirst (line : Text) : Text := line.takeWhile (· ≠ '/')

/-- The order of the characters' codes. -/
def textLe : Text → Text → Bool
  | [], _ => true
  | _ :: _, [] => false
  | a :: as, b :: bs => if a = b then textLe as bs else a.toNat < b.toNat

/-- `sort -u`: the lines in order, each once. -/
def sortU (lines : List Text) : List Text := (lines.mergeSort textLe).dedup

/-- `cut` takes the first component of a path. -/
theorem head?_splitOn (line : Text) : (line.splitOn '/').head? = some (cutFirst line) := by
  induction line with
  | nil => rfl
  | cons c line ih =>
      rw [List.splitOn, List.splitOnP_cons_eq_if_modifyHead]
      by_cases hc : c = '/'
      · simp [hc, cutFirst]
      · have hsplit : List.splitOnP (· == '/') line = line.splitOn '/' := rfl
        simp [hc, cutFirst, hsplit, List.head?_modifyHead, ih]

@[simp] theorem mem_sortU {l : Text} {lines : List Text} : l ∈ sortU lines ↔ l ∈ lines := by
  simp [sortU]

theorem sortU_nodup (lines : List Text) : (sortU lines).Nodup := List.nodup_dedup _

theorem textLe_trans {a b c : Text} (hab : textLe a b = true) (hbc : textLe b c = true) :
    textLe a c = true := by
  induction a generalizing b c with
  | nil => rfl
  | cons x a ih =>
      cases b with
      | nil => cases hab
      | cons y b =>
          cases c with
          | nil => cases hbc
          | cons z c =>
              simp only [textLe] at hab hbc ⊢
              by_cases hxy : x = y
              · subst hxy
                rw [if_pos rfl] at hab
                by_cases hxz : x = z
                · rw [if_pos hxz] at hbc ⊢
                  exact ih hab hbc
                · rw [if_neg hxz] at hbc ⊢
                  exact hbc
              · rw [if_neg hxy, decide_eq_true_eq] at hab
                by_cases hyz : y = z
                · subst hyz
                  rw [if_neg hxy]
                  exact decide_eq_true hab
                · rw [if_neg hyz, decide_eq_true_eq] at hbc
                  have hxz : x ≠ z := by
                    rintro rfl
                    omega
                  rw [if_neg hxz]
                  exact decide_eq_true (by omega)

theorem textLe_total (a b : Text) : (textLe a b || textLe b a) = true := by
  induction a generalizing b with
  | nil => rfl
  | cons x a ih =>
      cases b with
      | nil => rfl
      | cons y b =>
          simp only [textLe]
          by_cases hxy : x = y
          · subst hxy
            simpa using ih b
          · rw [if_neg hxy, if_neg (Ne.symm hxy)]
            have hne : x.toNat ≠ y.toNat := fun h => hxy (Char.toNat_inj.mp h)
            simp only [Bool.or_eq_true, decide_eq_true_eq]
            omega

theorem sortU_sorted (lines : List Text) :
    (sortU lines).Pairwise fun a b => textLe a b = true := by
  have hsorted : (lines.mergeSort textLe).Pairwise fun a b => textLe a b = true := by
    apply List.pairwise_mergeSort
    · intro a b c hab hbc
      exact textLe_trans hab hbc
    · exact textLe_total
  exact hsorted.sublist (List.dedup_sublist _)

theorem substitution_newline (t : Text) : substitution (t ++ ['\n']) = substitution t := by
  simp [substitution]

/-- What ends with a line that is not empty is kept. -/
theorem substitution_append {t l : Text} (hne : l ≠ []) (hl : '\n' ∉ l) :
    substitution (t ++ l) = t ++ l := by
  induction l using List.reverseRecOn with
  | nil => exact absurd rfl hne
  | append_singleton l c _ =>
      have hc : c ≠ '\n' := by
        rintro rfl
        simp at hl
      rw [← List.append_assoc]
      simp [substitution, hc]

/-- A line without its newline. -/
theorem substitution_line {l : Text} (hl : '\n' ∉ l) : substitution (l ++ ['\n']) = l := by
  rw [substitution_newline]
  by_cases hne : l = []
  · subst hne
    rfl
  · exact substitution_append (t := []) hne hl

/-- In a sorted list without repetitions only the first line can be empty. -/
theorem ne_nil_of_sorted {l : Text} {lines : List Text}
    (hsorted : (l :: lines).Pairwise fun a b => textLe a b = true)
    (hnodup : (l :: lines).Nodup) : ∀ m ∈ lines, m ≠ [] := by
  rintro m hm rfl
  have hle : textLe l [] = true := List.rel_of_pairwise_cons hsorted hm
  have hnil : l = [] := by
    cases l with
    | nil => rfl
    | cons c l => cases hle
  exact (List.nodup_cons.mp hnodup).1 (hnil ▸ hm)

/-- Two lines or more leave a newline in the value. -/
theorem newline_mem_substitution {l m : Text} {lines : List Text}
    (hsorted : (l :: m :: lines).Pairwise fun a b => textLe a b = true) (hnodup : (l :: m :: lines).Nodup)
    (hline : ∀ k ∈ m :: lines, '\n' ∉ k) : '\n' ∈ substitution (unlines (l :: m :: lines)) := by
  have hne : m :: lines ≠ [] := List.cons_ne_nil m lines
  have hmem : (m :: lines).getLast hne ∈ m :: lines := List.getLast_mem hne
  have hlast : (m :: lines).getLast hne ≠ [] := ne_nil_of_sorted hsorted hnodup _ hmem
  have hsplit : unlines (l :: m :: lines) =
      l ++ '\n' :: (unlines (m :: lines).dropLast ++ (m :: lines).getLast hne) ++ ['\n'] := by
    have h : unlines (m :: lines) =
        unlines (m :: lines).dropLast ++ (m :: lines).getLast hne ++ ['\n'] := by
      conv_lhs => rw [← List.dropLast_append_getLast hne]
      simp [unlines]
    simp [unlines] at h ⊢
    exact h
  rw [hsplit, substitution_newline]
  have hassoc : l ++ '\n' :: (unlines (m :: lines).dropLast ++ (m :: lines).getLast hne) =
      (l ++ '\n' :: unlines (m :: lines).dropLast) ++ (m :: lines).getLast hne := by
    rw [List.append_assoc, List.cons_append]
  rw [hassoc, substitution_append hlast (hline _ hmem)]
  simp

/-- The value of `$(… | sort -u)` is a single word exactly if every line is this word and
there is one. -/
theorem substitution_sortU_eq_iff {lines : List Text} {word : Text}
    (hlines : ∀ l ∈ lines, '\n' ∉ l) (hne : word ≠ []) (hword : '\n' ∉ word) :
    substitution (unlines (sortU lines)) = word ↔ lines ≠ [] ∧ ∀ l ∈ lines, l = word := by
  have hsorted := sortU_sorted lines
  have hnodup := sortU_nodup lines
  have hmem : ∀ l, l ∈ sortU lines ↔ l ∈ lines := fun l => mem_sortU
  generalize sortU lines = ls at hsorted hnodup hmem
  have hlines' : ∀ l ∈ ls, '\n' ∉ l := fun l hl => hlines l ((hmem l).mp hl)
  have hempty : lines ≠ [] ↔ ls ≠ [] := by
    rw [ne_eq, ne_eq, List.eq_nil_iff_forall_not_mem, List.eq_nil_iff_forall_not_mem]
    simp only [hmem]
  rw [hempty]
  simp only [← hmem]
  cases ls with
  | nil => simp [unlines, substitution, hne.symm]
  | cons l ls =>
      cases ls with
      | nil =>
          have hone : unlines [l] = l ++ ['\n'] := by simp [unlines]
          rw [hone, substitution_line (hlines' l List.mem_cons_self)]
          simp
      | cons m ls =>
          have hnewline := newline_mem_substitution hsorted hnodup fun k hk =>
            hlines' k (List.mem_cons_of_mem l hk)
          constructor
          · rintro rfl
            exact absurd hnewline hword
          · rintro ⟨-, hall⟩
            have hl : l = word := hall l (by simp)
            have hm : m = word := hall m (by simp)
            exact absurd (hl.trans hm.symm) (by
              rintro rfl
              simp at hnodup)

/-! ### Fields and numbers -/

def isBlank (c : Char) : Bool := c ∈ [' ', '\t', '\n']

/-- The fields `$1`, `$2`, … of a line in `awk`. -/
def fields (line : Text) : List Text := (line.splitOnP isBlank).filter (· ≠ [])

/-- The value of a row of digits. -/
def digitsValue (ds : Text) : Nat := ds.foldl (fun n c => 10 * n + (c.toNat - '0'.toNat)) 0

def digits (t : Text) : Option Nat :=
  if t ≠ [] ∧ t.all Char.isDigit then some (digitsValue t) else none

/-- The number that `[ … -ge … ]` reads; blanks around it do not count. With `none` the test
fails with a message. -/
def number (t : Text) : Option Int :=
  match (t.dropWhile isBlank).rdropWhile isBlank with
  | '-' :: ds => (digits ds).map fun n => -Int.ofNat n
  | '+' :: ds => (digits ds).map Int.ofNat
  | ds => (digits ds).map Int.ofNat

theorem fields_blank {c : Char} (hc : isBlank c = true) (line : Text) :
    fields (c :: line) = fields line := by
  simp [fields, List.splitOnP_cons_eq_if_modifyHead, hc]

/-- A word with a blank after it is a field. -/
theorem fields_word {w : Text} (hne : w ≠ []) (hw : ∀ c ∈ w, isBlank c = false) {c : Char}
    (hc : isBlank c = true) (line : Text) : fields (w ++ c :: line) = w :: fields line := by
  unfold fields
  rw [List.splitOnP_append_cons_of_forall_mem hw c hc, List.filter_cons_of_pos (by simpa using hne)]

theorem eq_false_of_mem_splitOnP {p : Char → Bool} {line w : Text} (h : w ∈ line.splitOnP p) :
    ∀ c ∈ w, p c = false := by
  induction line generalizing w with
  | nil =>
      rw [List.splitOnP_nil, List.mem_singleton] at h
      simp [h]
  | cons x line ih =>
      rw [List.splitOnP_cons_eq_if_modifyHead] at h
      split at h
      · rcases List.mem_cons.mp h with rfl | h
        · simp
        · exact ih h
      · rename_i hx
        obtain ⟨v, vs, hsplit⟩ := List.exists_cons_of_ne_nil (List.splitOnP_ne_nil p line)
        rw [hsplit, List.modifyHead_cons] at h
        rw [hsplit] at ih
        rcases List.mem_cons.mp h with rfl | h
        · intro c hc
          rcases List.mem_cons.mp hc with rfl | hc
          · exact (Bool.not_eq_true _).mp hx
          · exact ih List.mem_cons_self c hc
        · exact ih (List.mem_cons_of_mem v h)

/-- Fields are not empty and have no blanks in them. -/
theorem mem_fields {line w : Text} (h : w ∈ fields line) : w ≠ [] ∧ ∀ c ∈ w, isBlank c = false := by
  obtain ⟨hmem, hne⟩ := List.mem_filter.mp h
  exact ⟨by simpa using hne, eq_false_of_mem_splitOnP hmem⟩

theorem fields_ne_nil {line : Text} {c : Char} (hc : c ∈ line) (hblank : isBlank c = false) :
    fields line ≠ [] := by
  induction line with
  | nil => cases hc
  | cons x line ih =>
      cases hx : isBlank x with
      | true =>
          rw [fields_blank hx]
          rcases List.mem_cons.mp hc with rfl | hc
          · rw [hblank] at hx
            cases hx
          · exact ih hc
      | false =>
          obtain ⟨v, vs, hsplit⟩ := List.exists_cons_of_ne_nil (List.splitOnP_ne_nil isBlank line)
          unfold fields
          rw [List.splitOnP_cons_eq_if_modifyHead, hx, hsplit, if_neg (by simp),
            List.modifyHead_cons, List.filter_cons_of_pos (by simp)]
          exact List.cons_ne_nil _ _

theorem isBlank_of_isDigit {c : Char} (h : c.isDigit = true) : isBlank c = false := by
  by_contra hblank
  have hc : c ∈ [' ', '\t', '\n'] := of_decide_eq_true ((Bool.not_eq_false _).mp hblank)
  simp only [List.mem_cons, List.not_mem_nil, or_false] at hc
  rcases hc with rfl | rfl | rfl <;> exact absurd h (by decide)

/-- There are no blanks to drop. -/
theorem trim_eq_self {t : Text} (hhead : ∀ c ∈ t.head?, isBlank c = false)
    (hlast : ∀ c ∈ t.getLast?, isBlank c = false) :
    (t.dropWhile isBlank).rdropWhile isBlank = t := by
  have hdrop : t.dropWhile isBlank = t := by
    cases t with
    | nil => rfl
    | cons c t => exact List.dropWhile_cons_of_neg (by simp [hhead c rfl])
  rw [hdrop, List.rdropWhile_eq_self_iff]
  intro hne
  simp [hlast _ (List.getLast?_eq_some_getLast hne)]

/-- Digits are a number. -/
theorem number_digits {ds : Text} (hne : ds ≠ []) (hds : ∀ c ∈ ds, c.isDigit = true) :
    number ds = some (digitsValue ds : Int) := by
  have htrim : (ds.dropWhile isBlank).rdropWhile isBlank = ds :=
    trim_eq_self (fun c hc => isBlank_of_isDigit (hds c (List.mem_of_head? hc)))
      fun c hc => isBlank_of_isDigit (hds c (List.mem_of_getLast? hc))
  have hdigits : digits ds = some (digitsValue ds) := if_pos ⟨hne, List.all_eq_true.mpr hds⟩
  unfold number
  rw [htrim]
  split
  · exact absurd (hds '-' List.mem_cons_self) (by decide)
  · exact absurd (hds '+' List.mem_cons_self) (by decide)
  · rw [hdigits]
    rfl

theorem digits_eq_none {t : Text} (h : '\n' ∈ t) : digits t = none := by
  refine if_neg fun hall => ?_
  exact absurd (List.all_eq_true.mp hall.2 '\n' h) (by decide)

/-- Two lines are not one number. -/
theorem number_lines {w ds : Text} (hw : w ≠ []) (hblank : ∀ c ∈ w, isBlank c = false)
    (hne : ds ≠ []) (hds : ∀ c ∈ ds, c.isDigit = true) : number (w ++ '\n' :: ds) = none := by
  obtain ⟨x, w, rfl⟩ := List.exists_cons_of_ne_nil hw
  rw [List.cons_append]
  have htrim : ((x :: (w ++ '\n' :: ds)).dropWhile isBlank).rdropWhile isBlank =
      x :: (w ++ '\n' :: ds) := by
    apply trim_eq_self
    · intro c hc
      cases hc
      exact hblank _ List.mem_cons_self
    · intro c hc
      rw [← List.cons_append, List.getLast?_append, List.getLast?_cons,
        List.getLast?_eq_some_getLast hne] at hc
      cases hc
      exact isBlank_of_isDigit (hds _ (List.getLast_mem hne))
  have hmem : '\n' ∈ w ++ '\n' :: ds := by simp
  unfold number
  rw [htrim]
  split
  · rename_i heq
    cases heq
    rw [digits_eq_none hmem]
    rfl
  · rename_i heq
    cases heq
    rw [digits_eq_none hmem]
    rfl
  · rw [digits_eq_none (List.mem_cons_of_mem x hmem)]
    rfl

end Hub11.Shell
