import Hub11.Shell.KeyFile

/-!
The Wi-Fi profile that `scripts/build-rootfs.sh` installs.

`nope_5g.nmconnection` is copied, and unless `grep` finds a line that begins with
`interface-name=wlan0`, `sed` appends this line after every line that begins with
`[connection]`. `grep` does not ask in which group its line is nor where the value ends, and an
assignment further down wins over the appended one: `pinned_iff` says which files come out
pinned to `wlan0` all the same.
-/

namespace Hub11.Scripts.WifiProfile

open Hub11.Shell Hub11.Shell.KeyFile

def connection : Text := "connection".toList
def interfaceName : Text := "interface-name".toList
def wlan0 : Text := "wlan0".toList

/-- `^\[connection\]` -/
def headerPattern : Text := "[connection]".toList

/-- The line that `grep` looks for the beginning of and that `sed` appends. -/
def pinLine : Text := "interface-name=wlan0".toList

/-- The profile in the image: as it is if a line begins with the pin, and else with the pin after
every line that begins with the header. -/
def installed (lines : List Text) : List Text :=
  if lines.any fun l => pinLine.isPrefixOf l then lines
  else appendAfter headerPattern pinLine lines

/-- The profile loads, is for `wlan0`, and is otherwise as it was: every other key has the value it
had. -/
structure Pinned (lines : List Text) : Prop where
  loads : KeyFile.loads none (installed lines) = true
  wlan0 : value (installed lines) connection interfaceName = some wlan0
  rest : ∀ g k, ¬ (g = connection ∧ k = interfaceName) →
    value (installed lines) g k = value lines g k

/-- When a profile comes out pinned. It can be told from the lines that are given. -/
inductive Pinnable (lines : List Text) : Prop where
  /-- It is left as it is, and was pinned already. -/
  | untouched (h : (∃ l ∈ lines, pinLine <+: l) ∨ ∀ l ∈ lines, ¬ headerPattern <+: l)
      (hvalue : value lines connection interfaceName = some wlan0)
  /-- Lines are appended, and no other interface is named after the last of them. -/
  | appended (hgrep : ∀ l ∈ lines, ¬ pinLine <+: l) (before : List Text) (header : Text)
      (after : List Text) (hlines : lines = before ++ header :: after)
      (hheader : headerPattern <+: header) (hlast : ∀ l ∈ after, ¬ headerPattern <+: l)
      (hvalue : ∀ v, lastValue connection interfaceName (assigns (some connection) after) = some v →
        v = wlan0)

/-! ### The appended lines -/

theorem readLine_pinLine : readLine pinLine = some (.assign interfaceName wlan0) := by decide

theorem readLine_header {line : Text} (h : headerPattern <+: line) (hread : readLine line ≠ none) :
    readLine line = some (.header connection) := by
  obtain ⟨item, hitem⟩ := Option.ne_none_iff_exists'.mp hread
  have hpattern : headerPattern = '[' :: connection ++ [']'] := by decide
  rw [hitem, readLine_of_header (by decide) (hpattern ▸ h) hitem]

theorem appendAfter_of_none {lines : List Text} (h : ∀ l ∈ lines, ¬ headerPattern <+: l) :
    appendAfter headerPattern pinLine lines = lines := by
  induction lines with
  | nil => rfl
  | cons l lines ih =>
      have hl : ¬ headerPattern.isPrefixOf l = true := by
        rw [List.isPrefixOf_iff_prefix]
        exact h l List.mem_cons_self
      have hrest := ih fun m hm => h m (List.mem_cons_of_mem l hm)
      unfold appendAfter at hrest ⊢
      rw [List.flatMap_cons, if_neg hl, hrest]
      rfl

theorem appendAfter_append (lines lines' : List Text) :
    appendAfter headerPattern pinLine (lines ++ lines') =
      appendAfter headerPattern pinLine lines ++ appendAfter headerPattern pinLine lines' :=
  List.flatMap_append

theorem appendAfter_header {line : Text} (h : headerPattern <+: line) (lines : List Text) :
    appendAfter headerPattern pinLine (line :: lines) =
      line :: pinLine :: appendAfter headerPattern pinLine lines := by
  unfold appendAfter
  rw [List.flatMap_cons, if_pos (List.isPrefixOf_iff_prefix.mpr h)]
  rfl

theorem appendAfter_other {line : Text} (h : ¬ headerPattern <+: line) (lines : List Text) :
    appendAfter headerPattern pinLine (line :: lines) =
      line :: appendAfter headerPattern pinLine lines := by
  unfold appendAfter
  rw [List.flatMap_cons, if_neg (fun hp => h (List.isPrefixOf_iff_prefix.mp hp))]
  rfl

section Loaded

variable {group : Option Text} {line : Text} {lines : List Text}

theorem loads_cons (h : KeyFile.loads group (line :: lines) = true) :
    readLine line ≠ none ∧ KeyFile.loads (nextGroup group line) lines = true := by
  simp only [KeyFile.loads, Bool.and_eq_true] at h
  refine ⟨fun hnone => ?_, h.2⟩
  rw [hnone] at h
  cases h.1

theorem nextGroup_header (h : headerPattern <+: line) (hread : readLine line ≠ none) :
    nextGroup group line = some connection := by
  simp only [nextGroup, readLine_header h hread]

theorem nextGroup_pinLine : nextGroup group pinLine = group := by
  simp only [nextGroup, readLine_pinLine]

theorem assignOf_header (h : headerPattern <+: line) (hread : readLine line ≠ none) :
    assignOf group line = [] := by
  cases group <;> simp only [assignOf, readLine_header h hread]

/-- The appended lines do not get in the way of loading. -/
theorem loads_appendAfter (h : KeyFile.loads group lines = true) :
    KeyFile.loads group (appendAfter headerPattern pinLine lines) = true := by
  induction lines generalizing group with
  | nil => rfl
  | cons l lines ih =>
      obtain ⟨hread, hrest⟩ := loads_cons h
      by_cases hl : headerPattern <+: l
      · rw [appendAfter_header hl]
        rw [nextGroup_header hl hread] at hrest
        simp only [KeyFile.loads, readLine_header hl hread, nextGroup_header hl hread,
          readLine_pinLine, nextGroup_pinLine, Option.isSome_some, Bool.true_and]
        exact ih hrest
      · rw [appendAfter_other hl]
        simp only [KeyFile.loads, Bool.and_eq_true] at h ⊢
        exact ⟨h.1, ih hrest⟩

/-- Only the interface of the connection is assigned to. -/
theorem lastValue_appendAfter {g k : Text} (hother : ¬ (g = connection ∧ k = interfaceName))
    (h : KeyFile.loads group lines = true) :
    lastValue g k (assigns group (appendAfter headerPattern pinLine lines)) =
      lastValue g k (assigns group lines) := by
  induction lines generalizing group with
  | nil => rfl
  | cons l lines ih =>
      obtain ⟨hread, hrest⟩ := loads_cons h
      by_cases hl : headerPattern <+: l
      · have hpin : lastValue g k [⟨connection, interfaceName, wlan0⟩] = none := by
          have hne : ¬ (connection = g ∧ interfaceName = k) :=
            fun heq => hother ⟨heq.1.symm, heq.2.symm⟩
          simp [lastValue, hne]
        have hassign : assignOf (some connection) pinLine = [⟨connection, interfaceName, wlan0⟩] := by
          simp only [assignOf, readLine_pinLine]
        rw [appendAfter_header hl]
        simp only [assigns, assignOf_header hl hread, nextGroup_header hl hread, hassign,
          nextGroup_pinLine, List.nil_append]
        rw [lastValue_append, hpin, Option.or_none]
        rw [nextGroup_header hl hread] at hrest
        exact ih hrest
      · rw [appendAfter_other hl]
        simp only [assigns]
        rw [lastValue_append, lastValue_append, ih hrest]

/-- After the last header the appended line counts, unless there is another one. -/
theorem lastValue_appended {before after : List Text} {header : Text}
    (h : KeyFile.loads group (before ++ header :: after) = true)
    (hheader : headerPattern <+: header) (hlast : ∀ l ∈ after, ¬ headerPattern <+: l) :
    lastValue connection interfaceName
        (assigns group (appendAfter headerPattern pinLine (before ++ header :: after))) =
      (lastValue connection interfaceName (assigns (some connection) after)).or (some wlan0) := by
  rw [loads_append, Bool.and_eq_true] at h
  obtain ⟨hread, -⟩ := loads_cons h.2
  have hassign : assignOf (some connection) pinLine = [⟨connection, interfaceName, wlan0⟩] := by
    simp only [assignOf, readLine_pinLine]
  have hpin : lastValue connection interfaceName [⟨connection, interfaceName, wlan0⟩] =
      some wlan0 := by decide
  rw [appendAfter_append, appendAfter_header hheader, appendAfter_of_none hlast, assigns_append]
  simp only [assigns, assignOf_header hheader hread, nextGroup_header hheader hread, hassign,
    nextGroup_pinLine, List.nil_append]
  rw [lastValue_append, lastValue_append, hpin]
  cases lastValue connection interfaceName (assigns (some connection) after) <;> rfl

end Loaded

/-! ### Which profiles come out pinned -/

/-- The last line of a kind. -/
theorem exists_last {p : Text → Prop} {lines : List Text} (h : ∃ l ∈ lines, p l) :
    ∃ before header after, lines = before ++ header :: after ∧ p header ∧ ∀ l ∈ after, ¬ p l := by
  induction lines with
  | nil => simp at h
  | cons l lines ih =>
      by_cases hrest : ∃ m ∈ lines, p m
      · obtain ⟨before, header, after, hlines, hheader, hlast⟩ := ih hrest
        exact ⟨l :: before, header, after, by rw [hlines]; rfl, hheader, hlast⟩
      · obtain ⟨m, hm, hp⟩ := h
        have hlast : ∀ m ∈ lines, ¬ p m := fun m hm hp => hrest ⟨m, hm, hp⟩
        rcases List.mem_cons.mp hm with rfl | hm
        · exact ⟨[], m, lines, rfl, hp, hlast⟩
        · exact absurd hp (hlast m hm)

theorem installed_untouched {lines : List Text}
    (h : (∃ l ∈ lines, pinLine <+: l) ∨ ∀ l ∈ lines, ¬ headerPattern <+: l) :
    installed lines = lines := by
  unfold installed
  split
  · rfl
  · rename_i hgrep
    rcases h with ⟨l, hl, hpin⟩ | hnone
    · exact absurd (List.any_eq_true.mpr ⟨l, hl, List.isPrefixOf_iff_prefix.mpr hpin⟩) hgrep
    · exact appendAfter_of_none hnone

theorem installed_appended {lines : List Text} (h : ∀ l ∈ lines, ¬ pinLine <+: l) :
    installed lines = appendAfter headerPattern pinLine lines := by
  unfold installed
  rw [if_neg]
  intro hany
  obtain ⟨l, hl, hpin⟩ := List.any_eq_true.mp hany
  exact h l hl (List.isPrefixOf_iff_prefix.mp hpin)

/-- A profile that loads comes out pinned exactly if it is left alone and was pinned, or lines
are appended and no other interface is named after the last one. -/
theorem pinned_iff {lines : List Text} (hloads : KeyFile.loads none lines = true) :
    Pinned lines ↔ Pinnable lines := by
  by_cases huntouched : (∃ l ∈ lines, pinLine <+: l) ∨ ∀ l ∈ lines, ¬ headerPattern <+: l
  · have hsame := installed_untouched huntouched
    constructor
    · intro h
      exact .untouched huntouched (hsame ▸ h.wlan0)
    · rintro (⟨-, hvalue⟩ | ⟨hgrep, before, header, after, rfl, hheader, -, -⟩)
      · exact ⟨hsame.symm ▸ hloads, hsame.symm ▸ hvalue, fun g k _ => by rw [hsame]⟩
      · rcases huntouched with ⟨l, hl, hpin⟩ | hnone
        · exact absurd hpin (hgrep l hl)
        · exact absurd hheader (hnone header (by simp))
  · rw [not_or] at huntouched
    have hgrep : ∀ l ∈ lines, ¬ pinLine <+: l := fun l hl hpin => huntouched.1 ⟨l, hl, hpin⟩
    have happended := installed_appended hgrep
    constructor
    · intro h
      have hexists : ∃ l ∈ lines, headerPattern <+: l := by
        by_contra hnone
        exact huntouched.2 fun l hl hp => hnone ⟨l, hl, hp⟩
      obtain ⟨before, header, after, rfl, hheader, hlast⟩ := exists_last hexists
      refine .appended hgrep before header after rfl hheader hlast fun v hv => ?_
      have hvalue := h.wlan0
      rw [happended, value, lastValue_appended hloads hheader hlast, hv] at hvalue
      exact Option.some.inj hvalue
    · rintro (⟨h, -⟩ | ⟨-, before, header, after, rfl, hheader, hlast, hvalue⟩)
      · exact absurd h (by rw [not_or]; exact huntouched)
      · refine ⟨?_, ?_, fun g k hother => ?_⟩
        · rw [happended]
          exact loads_appendAfter hloads
        · rw [happended, value, lastValue_appended hloads hheader hlast]
          cases hv : lastValue connection interfaceName (assigns (some connection) after) with
          | none => rfl
          | some v => exact congrArg some (hvalue v hv)
        · rw [happended]
          exact lastValue_appendAfter hother hloads

/-- A profile for another interface. -/
def wiredProfile : List Text :=
  ["[connection]".toList, "id=nope_5g".toList, "interface-name=eth0".toList]

theorem not_pinned : ¬ ∀ lines : List Text, KeyFile.loads none lines = true →
    (∃ l ∈ lines, readLine l = some (.header connection)) → Pinned lines := by
  intro h
  have hpinned := h wiredProfile (by decide) ⟨_, List.mem_cons_self, by decide⟩
  exact absurd hpinned.wlan0 (by decide)

/-- The profile without the line comes out pinned. -/
theorem pinned_iff_unassigned :
    KeyFile.loads none ["[connection]".toList, "id=nope_5g".toList] = true ∧
      Pinned ["[connection]".toList, "id=nope_5g".toList] :=
  ⟨by decide, (pinned_iff (by decide)).mpr (.appended (by decide) [] "[connection]".toList
    ["id=nope_5g".toList] rfl (by decide) (by decide) fun v hv => by
      have hnone : lastValue connection interfaceName
          (assigns (some connection) ["id=nope_5g".toList]) = none := by decide
      rw [hnone] at hv
      cases hv)⟩

end Hub11.Scripts.WifiProfile
