import DiffAnalyzer.CommandLine.Response

/-!
# The command line program

Files are read and written here; `CommandLine.respond` decides everything else.
-/

namespace DiffAnalyzer.CommandLine

/-- Whether a file can be opened; one that is opened for output is emptied. -/
def tryOpen (opening : Opening) (path : String) : IO Bool := do
  try
    match opening with
    | .input => discard (IO.FS.Handle.mk path .read)
    | .output => discard (IO.FS.Handle.mk path .write)
    return true
  catch _ => return false

/-- The text of a file, or of the standard input for `-`; nothing if it is no text. -/
def readText (path : String) : IO (Option String) := do
  try
    if path == "-" then return some (← (← IO.getStdin).readToEnd)
    else return some (← IO.FS.readFile path)
  catch _ => return none

/-- Answer one invocation and return its exit code. -/
def run (args : List String) : IO UInt32 := do
  let response ← respond ⟨tryOpen, readText⟩ args
  (← IO.getStdout).write ⟨response.stdout.toArray⟩
  (← IO.getStderr).putStr response.stderr
  if let some (path, bytes) := response.file then
    IO.FS.writeBinFile path ⟨bytes.toArray⟩
  return response.code.toUInt32

end DiffAnalyzer.CommandLine

def main (args : List String) : IO UInt32 :=
  DiffAnalyzer.CommandLine.run args
