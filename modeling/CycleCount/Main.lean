import CycleCount.Command.Run
import CycleCount.Disk.Listing

/-! The command line. The files that a command may see are listed on standard
input, one a line with its modification time; their content is read from the
working directory, and files that the command writes go there. -/

namespace CycleCount.Main

def usage : String :=
  "Statistics of cycle counts. The files to use are listed on standard input.\n\n" ++
  "  reshape    -i FILE -o FILE -l FUNCTIONS [-t TRIALS]\n" ++
  "  analyze    -c FILE [-f FORMAT] [-o FILE] [--no-cache]\n" ++
  "  functions  --without FILE --with FILE [--only NAME] [--cache FILE] [-f FORMAT] [-o FILE]\n"

partial def readDisk (input : IO.FS.Stream) (disk : Disk) : IO Disk := do
  let line ← input.getLine
  if line.isEmpty then return disk
  match Disk.listed? (line.dropEndWhile (· == '\n')).toString with
  | none => readDisk input disk
  | some (modified, path) =>
    let content ← IO.FS.readBinFile path.text
    readDisk input (disk.addListed modified path content.toList)

def execute (command : Command) : IO UInt32 := do
  let disk ← readDisk (← IO.getStdin) (.vacant {} ⟨0, 0⟩)
  let result := command.run disk
  for (path, content) in disk.changes result.disk do
    IO.FS.writeBinFile path.text content.toByteArray
  IO.print result.output
  for note in result.notes do
    IO.eprintln note
  if let some failure := result.failure then
    IO.eprintln failure.text
  return result.exitCode.toUInt32

def run (args : List String) : IO UInt32 := do
  match Arguments.parse args with
  | .run command => execute command
  | .version => IO.print Arguments.versionText; return 0
  | .help => IO.print usage; return 0
  | .misuse => IO.eprint usage; return 2

end CycleCount.Main

def main (args : List String) : IO UInt32 := CycleCount.Main.run args
