import LinkAnalysis.Command.Run

/-!
# The program

Gathers what a run sees of the world, carries the command line out, and prints
what it leaves behind.
-/

namespace LinkAnalysis

open Command (Environment Opened)

def readAll (stream : IO.FS.Stream) : IO ByteArray := do
  let mut content := ByteArray.empty
  repeat
    let chunk ← stream.read 65536
    if chunk.isEmpty then break
    content := content ++ chunk
  return content

def openPath (path : String) : IO Opened := do
  try
    return .file (← IO.FS.readBinFile path)
  catch e =>
    match e with
    | .inappropriateType _ code _ =>
      return if code = 21 then .directory else .notDirectory
    | .invalidArgument _ 36 _ => return .nameTooLong
    | .permissionDenied _ _ _ => return .denied
    | _ => return .missing

/-- The configuration file of the user: in the directory for configurations,
which is absolute, or in the hidden one at home. -/
def userConfig : IO (Option String) := do
  let file := "/casenet/config.toml"
  match ← IO.getEnv "XDG_CONFIG_HOME" with
  | some directory =>
    if directory.startsWith "/" then return some (directory ++ file)
  | none => pure ()
  return (← IO.getEnv "HOME").map (· ++ "/.config" ++ file)

def gather (args : List String) : IO Environment := do
  let user ← userConfig
  let (paths, wantsInput) := match Command.readArguments args with
    | .ok inv =>
      let fromInput := Command.isStandardInput inv.snapshot
      ((inv.config.or user).toList ++
        (if fromInput then [] else [inv.snapshot]), fromInput)
    | .error _ => ([], false)
  let opened ← paths.mapM fun path => return (path, ← openPath path)
  let standardInput ←
    if wantsInput then readAll (← IO.getStdin) else pure ByteArray.empty
  return {
    files := fun path => (opened.lookup path).getD .missing
    standardInput := standardInput
    userConfig := user
    format := ← IO.getEnv "FORMAT"
    terminal := ← (← IO.getStdout).isTty }

end LinkAnalysis

def main (args : List String) : IO UInt32 := do
  let outcome := LinkAnalysis.Command.run (← LinkAnalysis.gather args) args
  IO.print outcome.output
  IO.eprint outcome.errors
  return outcome.exit.toUInt32
