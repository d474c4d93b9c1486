import Phrase.CommandLine.Run

/-!
# The program

Reads the files that a request needs, and prints its transcript.
-/

namespace Phrase

/-- Reads a stream to its end, behind the bytes read so far. -/
partial def readToEnd (stream : IO.FS.Stream) (bytes : ByteArray) : IO ByteArray := do
  let chunk ← stream.read 65536
  if chunk.isEmpty then return bytes else readToEnd stream (bytes ++ chunk)

/-- Why something could not be read. -/
def reasonOf : IO.Error → String
  | .noFileOrDirectory _ code _ => s!"No such file or directory (os error {code})"
  | .permissionDenied _ code _ => s!"Permission denied (os error {code})"
  | .inappropriateType _ code _ => s!"Is a directory (os error {code})"
  | e => toString e

/-- Reads the bytes of a place. -/
def readPlace (place : CommandLine.Place) : IO (Except String (List UInt8)) := do
  try
    let bytes ← match place with
      | .standardInput => readToEnd (← IO.getStdin) .empty
      | .file path => IO.FS.readBinFile path
    return .ok bytes.toList
  catch e => return .error (reasonOf e)

end Phrase

def main (arguments : List String) : IO UInt32 := do
  let transcript ← match ← Phrase.CommandLine.run Phrase.readPlace arguments with
    | .ok t => pure t
    | .error f => pure f.transcript
  (← IO.getStderr).putStr transcript.errors
  (← IO.getStdout).putStr transcript.output
  return transcript.exitCode.toUInt32
