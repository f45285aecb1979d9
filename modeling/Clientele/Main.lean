import Std.Time.DateTime.Timestamp
import Clientele.Command.Arguments
import Clientele.Command.Run

/-!
The program: it reads a command and the files that the command needs, runs the command, and writes
the files that have changed. The answer goes to the standard output, and the log to the standard
error.
-/
set_option autoImplicit false

namespace Clientele

namespace Command

def randomId (bytes : ByteArray) : Identifier :=
  let bits : BitVec 128 := bytes.toList.foldl (fun n b => n <<< 8 ||| BitVec.ofNat 128 b.toNat) 0
  let kindMask : BitVec 128 := 0xF000C000000000000000
  let kind : BitVec 128 := 0x40008000000000000000
  ⟨(bits &&& ~~~kindMask) ||| kind⟩

def supply (count : Nat) : IO Crm.Supply := do
  let mut ids : Array Identifier := #[]
  for _ in [0:count] do
    ids := ids.push (randomId (← IO.getRandomBytes 16))
  let now ← Std.Time.Timestamp.now
  let time := (Time.Instant.ofMillis? now.toMillisecondsSinceUnixEpoch.val).getD ⟨0, 0, 0⟩
  pure ⟨fun k => ids.getD k (randomId .empty), fun _ => time, 0, 0⟩

def placeText (way : FileTree.Way) : String := "/" ++ Text.joinText '/' way

/-- Takes what is at the end of a way, unless it is taken already or cannot be read. Of a folder
only its being there is taken. -/
def takeEntry (disk : Disk) (way : FileTree.Way) : IO Disk := do
  if (disk.root.find? way).isSome then pure disk
  else
    let place := (← IO.currentDir) / placeText way
    if ← place.isDir then pure { disk with root := FileTree.plant (.folder []) way disk.root }
    else
      try
        let text ← IO.FS.readFile place
        pure { disk with root := FileTree.plant (.file text) way disk.root }
      catch _ => pure disk

def takeRoute (disk : Disk) (r : Route) : IO Disk := do
  if (Disk.routeFault? r).isSome then pure disk
  else
    let mut disk := disk
    let mut way := if r.fromRoot then [] else disk.here
    for part in r.parts do
      if part == ".." then way := way.dropLast
      else if Route.isName part then
        way := way ++ [part]
        disk ← takeEntry disk way
    pure disk

def takeFolder (disk : Disk) (r : Route) : IO Disk := do
  let mut disk ← takeRoute disk r
  match disk.locate r with
  | .error _ => pure disk
  | .ok way =>
    let place := (← IO.currentDir) / placeText way
    if ← place.isDir then
      for found in ← place.readDir do
        disk ← takeEntry disk (way ++ [found.fileName])
    pure disk

def takeDisk (config : Route) : IO Disk := do
  let here := (Route.mk (← IO.currentDir).toString).parts.filter Route.isName
  let disk ← takeRoute ⟨FileTree.plant (.folder []) here (.folder []), here⟩ config
  match Config.load config disk with
  | .error _ => pure disk
  | .ok c =>
    let disk ← takeFolder disk c.dataDir
    match c.auditLog with
    | none => pure disk
    | some route => takeRoute disk route

partial def writeChanges (way : FileTree.Way) (before : Option FileTree) (after : FileTree) :
    IO Unit := do
  let place := (← IO.currentDir) / placeText way
  match before, after with
  | some (.file old), .file text => if old != text then IO.FS.writeFile place text
  | _, .file text => IO.FS.writeFile place text
  | before, .folder es =>
    let known ← match before with
      | some (.folder known) => pure known
      | _ =>
        IO.FS.createDirAll place
        pure []
    for (name, _) in known do
      if (FileTree.child? es name).isNone then
        IO.FS.removeFile ((← IO.currentDir) / placeText (way ++ [name]))
    for (name, t) in es do
      writeChanges (way ++ [name]) (FileTree.child? known name) t

def usage : String :=
  "usage: clientele (query | compile | get | create | update | delete | audit) [--config PATH]\n" ++
  "         [--entity NAME] [--id ID] [--user ID] [--limit COUNT]"

def Refusal.message : Refusal → String
  | helpWanted => usage
  | versionWanted => "clientele 0.1.0"
  | noCommand => usage
  | unknownCommand => "error: unknown command"
  | unknownArgument => "error: unexpected argument"
  | noValue => "error: an option has no value"
  | unneededValue => "error: an option takes no value"
  | badValue => "error: a value is not valid"
  | repeatedOption => "error: an option is given twice"
  | missingOption => "error: a required option is missing"

def refuse (r : Refusal) : IO UInt32 := do
  match r with
  | .helpWanted | .versionWanted =>
    IO.println r.message
    pure 0
  | _ =>
    IO.eprintln r.message
    pure 2

def runOnDisk (command : Command) : IO UInt32 := do
  let input ← if command.task.readsInput then (← IO.getStdin).readToEnd else pure ""
  let disk ← takeDisk command.config
  let outcome := run command input disk (← supply (input.length + 2))
  writeChanges [] (some disk.root) outcome.disk.root
  for line in outcome.log do
    IO.eprint line
  IO.println outcome.toJson.compact
  pure (if outcome.succeeded then 0 else 1)

end Command

end Clientele

def main (args : List String) : IO UInt32 :=
  match Clientele.Command.ofArguments args with
  | .error r => Clientele.Command.refuse r
  | .ok command => Clientele.Command.runOnDisk command
