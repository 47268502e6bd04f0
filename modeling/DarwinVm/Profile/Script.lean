import DarwinVm.Lib.Decimal
import DarwinVm.Lib.Dict
import DarwinVm.Lib.Script
import DarwinVm.Lib.Words

/-!
# The installer of a profile

`installer_script` of `tools/rootfs/bootstrap_profile.py` writes a shell script that patches the System
volume of a guest. The script is a list of commands (`commands`), each with the lines that are written
for it (`Command.lines`) and with what the shell does on them (`exec`). After `set -e` the shell stops
at the first command that fails (`runAll`). In `test "$(a)" = "$(b)"` the failure of `a` or `b` is
none: what they print is compared, which is nothing if a file cannot be opened.

A path leads to a file of the volume through links, which the script does not change
(`Guest.resolve`). Files are read as they are, but a command that writes may do something else than
it is asked to, and succeed or fail (`Guest.writing`).
-/

namespace DarwinVm.Profile

/-! ## The script -/

/-- `(target, payload, offset, length)`, of a check or of a write. -/
structure Item where
  target : Text
  payload : Text
  offset : Option ℕ
  length : ℕ
  deriving DecidableEq

/-- `(target, payload, mode)` -/
structure Addition where
  target : Text
  payload : Text
  mode : Text
  deriving DecidableEq

/-- The commands of the script. Targets are paths on the volume, and payloads names in `/libexec`. -/
inductive Command
  /-- A line that does nothing to files. -/
  | line (text : Text)
  | mount (options : Text)
  /-- `test -s` -/
  | nonempty (path : Text)
  /-- The loop over the names with a start and an end in a directory: `test ! -e` for each. -/
  | noneOf (patterns : List (Text × Text × Text))
  /-- The test that a file, or a range of it, is the same as a payload. -/
  | same (target : Text) (range : Option (ℕ × ℕ)) (payload : Text)
  /-- `test ! -e` -/
  | absent (target : Text)
  | echo (text : Text)
  | mkdir (path : Text)
  | cp (payload target : Text)
  | dd (payload target : Text) (offset length : ℕ)
  | chmod (mode target : Text)
  | chown (target : Text)
  | sync
  deriving DecidableEq

/-- The range of an item. -/
def Item.range (i : Item) : Option (ℕ × ℕ) := i.offset.map fun offset => (offset, i.length)

/-- The line for a check. -/
def Item.check (i : Item) : Command := .same i.target i.range i.payload

/-- The lines for a write. -/
def Item.write (i : Item) : List Command :=
  match i.offset with
  | none => [.cp i.payload i.target, .chown i.target, .same i.target none i.payload]
  | some offset =>
    [.dd i.payload i.target offset i.length, .same i.target (some (offset, i.length)) i.payload]

/-- The lines for an addition. -/
def Addition.write (a : Addition) : List Command :=
  [.cp a.payload a.target, .chmod a.mode a.target, .chown a.target, .same a.target none a.payload]

/-- The names that no file of the volume may have. -/
def stalePatterns : List (Text × Text × Text) := [
  ("/usr/local/libexec/".toList, "dvm-".toList, []),
  ("/System/Library/LaunchDaemons/".toList, "com.apple.dvm-".toList, ".plist".toList)]

/-- The commands before the checks. -/
def prologue (patched : Bool) : List Command := [
  .line "#!/bin/sh".toList,
  .line "set -eu".toList,
  .mount (if patched then [] else "-o ro ".toList),
  .line "root=/mnt1".toList,
  .nonempty "/usr/lib/libobjc-trampolines.dylib".toList,
  .nonempty "/usr/lib/libramrod.dylib".toList,
  .noneOf stalePatterns]

/-- The commands that check. -/
def checking (checks : List Item) (additions : List Addition) (patched : Bool) : List Command :=
  prologue patched ++ checks.map Item.check ++ additions.map fun a => .absent a.target

/-- The commands that write, with their tests. -/
def writing (writes : List Item) (additions : List Addition) (patched : Bool) : List Command :=
  if patched then
    .mkdir "/usr/local/libexec".toList :: (writes.flatMap Item.write ++
      additions.flatMap Addition.write)
  else []

/-- The last line that is printed. -/
def installed : Text := "DVM_PROFILE_INSTALLED".toList

/-- The script, as its commands. -/
def commands (checks writes : List Item) (additions : List Addition) (patched : Bool) :
    List Command :=
  checking checks additions patched ++ [.echo "DVM_PROFILE_PREIMAGES_VERIFIED".toList] ++
    writing writes additions patched ++ [.sync, .echo installed]

/-! ## Its text -/

/-- A character that `shlex.quote` leaves as it is. -/
def isSafe (c : Char) : Bool := c.isAlphanum || "_@%+=:,./-".toList.contains c

/-- `shlex.quote` -/
def shlexQuote (t : Text) : Text :=
  if t ≠ [] ∧ t.all isSafe then t
  else '\x27' :: (t.flatMap fun c => if c = '\x27' then "'\"'\"'".toList else [c]) ++ ['\x27']

/-- A target on the mounted volume, as a word. -/
def word (target : Text) : Text := shlexQuote ("/mnt1".toList ++ target)

/-- `read` -/
def readLine (target : Text) : Option (ℕ × ℕ) → Text
  | none => "cksum < ".toList ++ word target
  | some (offset, length) =>
    "dd if=".toList ++ word target ++ " bs=1 skip=".toList ++ decimal offset ++ " count=".toList ++
      decimal length ++ " 2>/dev/null | cksum".toList

/-- The lines of a command. -/
def Command.lines : Command → List Text
  | .line text => [text]
  | .mount options => ["mount_apfs ".toList ++ options ++ "/dev/disk1s1 /mnt1".toList]
  | .nonempty path => ["test -s \"$root".toList ++ path ++ "\"".toList]
  | .noneOf patterns => [
      "for p in".toList ++ (patterns.flatMap fun (dir, start, stop) =>
        " \"$root\"".toList ++ dir ++ start ++ ['*'] ++ stop) ++ "; do".toList,
      "    test ! -e \"$p\"".toList,
      "done".toList]
  | .same target range payload => ["test \"$(".toList ++ readLine target range ++
      ")\" = \"$(cksum < /libexec/".toList ++ payload ++ ")\"".toList]
  | .absent target => ["test ! -e ".toList ++ word target]
  | .echo text => ["echo ".toList ++ text]
  | .mkdir path => ["mkdir -p \"$root".toList ++ path ++ "\"".toList]
  | .cp payload target => ["cp /libexec/".toList ++ payload ++ ' ' :: word target]
  | .dd payload target offset length => ["dd if=/libexec/".toList ++ payload ++ " of=".toList ++
      word target ++ " bs=1 seek=".toList ++ decimal offset ++ " count=".toList ++ decimal length ++
      " conv=notrunc 2>/dev/null".toList]
  | .chmod mode target => ["chmod ".toList ++ mode ++ ' ' :: word target]
  | .chown target => ["chown 0:0 ".toList ++ word target]
  | .sync => ["sync".toList]

/-- `installer_script` -/
def installerScript (checks writes : List Item) (additions : List Addition) (patched : Bool) :
    Text :=
  ((commands checks writes additions patched).flatMap Command.lines).flatMap (· ++ ['\n'])

example : (Item.check ⟨"/a b".toList, "profile-0-before".toList, some 16, 4⟩).lines =
    ["test \"$(dd if='/mnt1/a b' bs=1 skip=16 count=4 2>/dev/null | cksum)\" = ".toList ++
      "\"$(cksum < /libexec/profile-0-before)\"".toList] := by decide +kernel

/-! ## What the shell does -/

/-- A file of the volume. -/
structure File where
  bytes : Bytes
  mode : Text
  owner : Text
  deriving DecidableEq

/-- The System volume: its files, and its directories. -/
structure Volume where
  files : List (Text × File)
  dirs : List Text
  deriving DecidableEq

/-- The guest that runs the script. -/
structure Guest where
  /-- The volume can be mounted. -/
  mounts : Bool
  /-- The path without links that a path leads to. -/
  resolve : Text → Text
  /-- The names in a directory. -/
  entries : Text → List Text
  /-- The files in `/libexec`. -/
  libexec : Text → Option Bytes
  /-- The first number that `cksum` prints. -/
  crc : Bytes → UInt32
  /-- What a command that writes does to the volume if it does not do what it is asked to, and
  whether it succeeds. -/
  disturbed : Command → Volume → Option (Volume × Bool)

/-- What the script has come to. -/
structure State where
  volume : Volume
  /-- The lines that have been printed. -/
  printed : List Text
  /-- The contents that have been compared by their checksums. -/
  compared : List (Bytes × Bytes)

variable (g : Guest)

/-- The file that a path leads to. -/
def Guest.file (v : Volume) (path : Text) : Option File := v.files.lookup (g.resolve path)

/-- `-e` -/
def Guest.exists (v : Volume) (path : Text) : Bool :=
  (g.file v path).isSome || v.dirs.contains (g.resolve path)

/-- A part of the bytes of a file, or all of them. -/
def part (range : Option (ℕ × ℕ)) (s : Bytes) : Bytes :=
  match range with
  | none => s
  | some (offset, length) => slice s offset (offset + length)

/-- What is in a range of a file. -/
def Guest.contents (v : Volume) (path : Text) (range : Option (ℕ × ℕ)) : Option Bytes :=
  (g.file v path).map fun f => part range f.bytes

/-- What `cksum` prints, without the newline. -/
def Guest.cksum (s : Bytes) : Text := decimal (g.crc s).toNat ++ ' ' :: decimal s.length

/-- What is given to the first `cksum` of a test. `dd` gives nothing if it cannot open the file, and
without it `cksum` is not started. -/
def Guest.read (v : Volume) (path : Text) : Option (ℕ × ℕ) → Option Bytes
  | none => g.contents v path none
  | some range => some ((g.contents v path (some range)).getD [])

/-- What is put in the place of `$(cksum < file)`. -/
def Guest.substitution : Option Bytes → Text
  | none => []
  | some s => g.cksum s

/-- The names in a directory with a start and an end. -/
def Guest.matching (dir start stop : Text) : List Text :=
  (g.entries dir).filter fun name => start.isPrefixOf name && stop.isSuffixOf name &&
    decide (start.length + stop.length ≤ name.length)

/-- The paths that a pattern is replaced with, which is the pattern if it matches no name. -/
def Guest.expand (dir start stop : Text) : List Text :=
  match g.matching dir start stop with
  | [] => [dir ++ start ++ ['*'] ++ stop]
  | names => names.map (dir ++ ·)

/-- The bytes of a file after others have been written at an offset. -/
def overwrite (s : Bytes) (offset : ℕ) (b : Bytes) : Bytes :=
  assign (ljust s offset) offset (offset + b.length) b

/-- The volume with a file, which keeps its mode and its owner if it was there. -/
def Guest.put (v : Volume) (path : Text) (bytes : Bytes) : Volume :=
  let old := (v.files.lookup path).getD ⟨[], "644".toList, "0:0".toList⟩
  { v with files := setItem v.files (path, { old with bytes := bytes }) }

/-- The path that `cp` writes to: a file in the target if this is a directory. -/
def Guest.copyTarget (v : Volume) (payload target : Text) : Text :=
  if g.resolve target ∈ v.dirs then g.resolve (target ++ '/' :: payload) else g.resolve target

/-- The volume with an attribute of a file changed. -/
def Guest.change (v : Volume) (target : Text) (f : File → File) : Volume × Bool :=
  match g.file v target with
  | some file => ({ v with files := setItem v.files (g.resolve target, f file) }, true)
  | none => (v, v.dirs.contains (g.resolve target))

/-- What a command that writes is asked to do. -/
def Guest.asked (c : Command) (v : Volume) : Volume × Bool :=
  match c with
  | .mkdir path => ({ v with dirs := g.resolve path :: v.dirs }, (g.file v path).isNone)
  | .cp payload target =>
    match g.libexec payload with
    | some bytes => (Guest.put v (g.copyTarget v payload target) bytes, true)
    | none => (v, false)
  | .dd payload target offset length =>
    match g.libexec payload with
    | some bytes =>
      let old := ((g.file v target).map File.bytes).getD []
      (Guest.put v (g.resolve target) (overwrite old offset (bytes.take length)), true)
    | none => (v, false)
  | .chmod mode target => g.change v target fun f => { f with mode := mode }
  | .chown target => g.change v target fun f => { f with owner := "0:0".toList }
  | _ => (v, true)

/-- A command that writes to the volume. -/
def Command.isWriting : Command → Bool
  | .mkdir _ | .cp _ _ | .dd _ _ _ _ | .chmod _ _ | .chown _ | .sync => true
  | _ => false

/-- One command: the state after it, and whether it succeeds. -/
def exec (c : Command) (s : State) : State × Bool :=
  match c with
  | .line _ => (s, true)
  | .mount _ => (s, g.mounts)
  | .nonempty path =>
    (s, (g.file s.volume path).any (·.bytes ≠ []) || s.volume.dirs.contains (g.resolve path))
  | .noneOf patterns =>
    (s, patterns.all fun (dir, start, stop) =>
      (g.expand dir start stop).all fun path => !g.exists s.volume path)
  | .same target range payload =>
    let got := g.read s.volume target range
    let want := g.libexec payload
    ({ s with compared := s.compared ++ (got.toList.product want.toList) },
      g.substitution got = g.substitution want)
  | .absent target => (s, !g.exists s.volume target)
  | .echo text => ({ s with printed := s.printed ++ [text] }, true)
  | c =>
    let (volume, ok) := (g.disturbed c s.volume).getD (g.asked c s.volume)
    ({ s with volume := volume }, ok)

/-- Commands after `set -e`, on a volume: what the shell has come to, and whether none has failed. -/
def run (cs : List Command) (v : Volume) : State × Bool :=
  Script.runAll (exec g) cs ⟨v, [], []⟩

end DarwinVm.Profile
