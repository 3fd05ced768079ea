import VerilogOutline.Command

/-!
# The program

The outer layer of the command: it reads the files that the command asks for,
prints the listing, and turns a failure into the exit code.
-/

namespace VerilogOutline.Command

/-- What the system says of reading a file. -/
def readOutcome (path : String) : IO ReadOutcome := do
  if path.toList.contains '\x00' then return .failed .nulInPath
  try
    let bytes ← IO.FS.readBinFile path
    return .found bytes.toList
  catch
    | .noFileOrDirectory .. => return .missing
    | .inappropriateType _ 21 _ => return .failed .isDirectory
    | .inappropriateType .. => return .failed .notDirectory
    | .invalidArgument .. => return .failed .nameTooLong
    | error => return .failed (.other error.toString)

/-- The accepted files among those at the paths. -/
def readFiles (options : Options) (paths : List String) : IO Disk := do
  let mut disk : Disk := fun _ => .missing
  for path in paths do
    if options.accepts path then
      let outcome ← readOutcome path
      let others := disk
      disk := fun other => if other = path then outcome else others other
  return disk

end VerilogOutline.Command

open VerilogOutline in
/-- List the modules of the files that are named on the command line. -/
def main (args : List String) : IO UInt32 := do
  let disk ← Command.readFiles {} args
  match (Command.output disk args).value with
  | .ok text =>
    IO.print text
    return 0
  | .error failure =>
    IO.eprintln s!"Error: {failure.message}"
    return 1
