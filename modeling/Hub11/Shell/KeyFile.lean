import Hub11.Shell.Pipeline

/-!
Key files as GLib's `GKeyFile` reads them, and `sed`'s command `a`.

A file is its list of lines. Blanks before a line, around `=` and after a group header do not
count, lines with `#` are comments, groups of one name are one group, and of several
assignments to a key of a group the last one counts. A file with any other line, or with
an assignment before the first header, is not loaded.
-/

namespace Hub11.Shell.KeyFile

/-- What a line is, once it has been read: nothing, the header of a group, or an assignment. -/
inductive Item where
  | blank
  | header (group : Text)
  | assign (key value : Text)
deriving DecidableEq

/-- `g_ascii_isspace` -/
def isSpace (c : Char) : Bool := c ∈ [' ', '\t', '\n', '\x0c', '\r']

/-- `g_ascii_iscntrl` -/
def isControl (c : Char) : Bool := c.toNat < 32 || c.toNat = 127

/-- `g_key_file_is_group_name`; a closing bracket has ended the name before. -/
def groupName (name : Text) : Bool := !name.isEmpty && name.all fun c => c ≠ '[' && !isControl c

/-- `g_key_file_is_key_name`: a word that does not end with a blank, and possibly a locale in
brackets. -/
def keyName (key : Text) : Bool :=
  let plain : Char → Bool := fun c => c ∉ ['=', '[', ']']
  let word := key.takeWhile plain
  !word.isEmpty && word.getLast? ≠ some ' ' &&
    match key.dropWhile plain with
    | [] => true
    | '[' :: locale => locale.getLast? = some ']' &&
        locale.dropLast.all fun c => c.isAlphanum || c ∈ ['-', '_', '.', '@']
    | _ => false

/-- The rest of a line after an opening bracket. -/
def readHeader (rest : Text) : Option Item :=
  match rest.dropWhile (· ≠ ']') with
  | [] => none
  | _ :: trailing =>
      if groupName (rest.takeWhile (· ≠ ']')) ∧ trailing.all (fun c => c = ' ' || c = '\t') then
        some (.header (rest.takeWhile (· ≠ ']')))
      else none

def readAssign (line : Text) : Option Item :=
  match line.dropWhile (· ≠ '=') with
  | [] => none
  | _ :: value =>
      if keyName ((line.takeWhile (· ≠ '=')).rdropWhile isSpace) then
        some (.assign ((line.takeWhile (· ≠ '=')).rdropWhile isSpace) (value.dropWhile isSpace))
      else none

/-- A carriage return before the newline is dropped. -/
def chomp (line : Text) : Text := if line.getLast? = some '\r' then line.dropLast else line

/-- What GLib makes of a line; nothing if it refuses the file for it. -/
def readLine (line : Text) : Option Item :=
  match (chomp line).dropWhile isSpace with
  | [] => some .blank
  | '#' :: _ => some .blank
  | '[' :: rest => readHeader rest
  | c :: rest => readAssign (c :: rest)

/-- The group that the lines after `line` belong to. -/
def nextGroup (group : Option Text) (line : Text) : Option Text :=
  match readLine line with
  | some (.header g) => some g
  | _ => group

structure Assign where
  group : Text
  key : Text
  value : Text
deriving DecidableEq

def assignOf (group : Option Text) (line : Text) : List Assign :=
  match group, readLine line with
  | some g, some (.assign k v) => [⟨g, k, v⟩]
  | _, _ => []

/-- The assignments of lines that follow a line of the given group, in order, each with its
group. -/
def assigns : Option Text → List Text → List Assign
  | _, [] => []
  | group, line :: lines => assignOf group line ++ assigns (nextGroup group line) lines

/-- Is there nothing that GLib refuses? -/
def loads : Option Text → List Text → Bool
  | _, [] => true
  | group, line :: lines =>
      (match readLine line with
        | none => false
        | some (.assign _ _) => group.isSome
        | some _ => true) && loads (nextGroup group line) lines

def lastValue (group key : Text) (as : List Assign) : Option Text :=
  (as.filter fun a => a.group = group ∧ a.key = key).getLast?.map Assign.value

/-- The value of a key in a file: that of the last assignment, in whichever part of the group it
stands. -/
def value (lines : List Text) (group key : Text) : Option Text :=
  lastValue group key (assigns none lines)

/-- `sed '/^pattern/a text'` for a pattern without special characters: the text comes after every
line that begins with it. -/
def appendAfter (pattern text : Text) (lines : List Text) : List Text :=
  lines.flatMap fun l => if pattern.isPrefixOf l then [l, text] else [l]

/-! ### Lemmas -/

section

variable {group : Option Text} {g k : Text}

theorem assigns_append (lines lines' : List Text) :
    assigns group (lines ++ lines') =
      assigns group lines ++ assigns (lines.foldl nextGroup group) lines' := by
  induction lines generalizing group with
  | nil => rfl
  | cons l lines ih =>
      simp only [List.cons_append, assigns, ih, List.append_assoc, List.foldl_cons]

theorem loads_append (lines lines' : List Text) :
    loads group (lines ++ lines') =
      (loads group lines && loads (lines.foldl nextGroup group) lines') := by
  induction lines generalizing group with
  | nil => rfl
  | cons l lines ih =>
      simp only [List.cons_append, loads, ih, List.foldl_cons, Bool.and_assoc]

theorem lastValue_append (as as' : List Assign) :
    lastValue g k (as ++ as') = (lastValue g k as').or (lastValue g k as) := by
  simp only [lastValue, List.filter_append, List.getLast?_append]
  cases (as'.filter fun a => a.group = g ∧ a.key = k).getLast? <;> rfl

/-- A line that begins like a header of `name` is one, or the file is not loaded. -/
theorem readLine_of_header {name line : Text} (hname : ']' ∉ name)
    (hline : '[' :: name ++ [']'] <+: line) {item : Item} (hread : readLine line = some item) :
    item = .header name := by
  obtain ⟨tail, rfl⟩ := hline
  have hchomp : ∃ tail', chomp ('[' :: name ++ [']'] ++ tail) = '[' :: (name ++ ']' :: tail') := by
    unfold chomp
    split
    · rename_i hlast
      cases tail using List.reverseRecOn with
      | nil =>
          rw [List.append_nil, List.getLast?_concat] at hlast
          exact absurd hlast (by decide)
      | append_singleton tail c =>
          refine ⟨tail, ?_⟩
          rw [← List.append_assoc, List.dropLast_concat]
          simp
    · exact ⟨tail, by simp⟩
  obtain ⟨tail', hchomp⟩ := hchomp
  have hspace : List.dropWhile isSpace ('[' :: (name ++ ']' :: tail')) =
      '[' :: (name ++ ']' :: tail') := List.dropWhile_cons_of_neg (by decide)
  have hfree : ∀ c ∈ name, decide (c ≠ ']') = true := by
    intro c hc
    simp only [ne_eq, decide_not, Bool.not_eq_eq_eq_not, Bool.not_true, decide_eq_false_iff_not]
    rintro rfl
    exact hname hc
  have htake : (name ++ ']' :: tail').takeWhile (· ≠ ']') = name := by
    rw [List.takeWhile_append_of_pos hfree]
    simp
  have hdrop : (name ++ ']' :: tail').dropWhile (· ≠ ']') = ']' :: tail' := by
    rw [List.dropWhile_append_of_pos hfree]
    simp
  unfold readLine at hread
  rw [hchomp, hspace] at hread
  simp only [readHeader, htake, hdrop] at hread
  split at hread
  · exact (Option.some.inj hread).symm
  · cases hread

end

end Hub11.Shell.KeyFile
