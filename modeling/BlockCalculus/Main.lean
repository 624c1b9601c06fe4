import BlockCalculus.Command.Run

/-!
# The command

Reads the files that the command line names, runs the command on them, and plays its transcript.
-/

namespace BlockCalculus.Command

/-- The system's number for an error. It may come negated, in 32 bits. -/
def systemCode (code : UInt32) : Nat :=
  if code.toNat < Nat.pow 2 31 then code.toNat else Nat.pow 2 32 - code.toNat

/-- The error of a system's number, or else one in the given words. -/
def fileErrorOfCode (code : UInt32) (words : String) : FileError :=
  match systemCode code with
  | 2 => .notFound
  | 13 => .other 13 "Permission denied"
  | 20 => .notFolder
  | 21 => .isFolder
  | 36 => .nameTooLong
  | n => .other n words

/-- Why the system could not read a file. -/
def fileErrorOf : IO.Error → FileError
  | .noFileOrDirectory .. => .notFound
  | .inappropriateType _ code words | .invalidArgument _ code words
  | .permissionDenied _ code words => fileErrorOfCode code words
  | e => .other 5 (toString e)

/-- Reads a file. -/
def readPath (path : String) : IO (Except FileError (List UInt8)) := do
  try return .ok (← IO.FS.readBinFile path).toList
  catch e => return .error (fileErrorOf e)

/-- Reads the files at some paths. -/
def readPaths (paths : List String) : IO Files := do
  let found ← paths.mapM fun path => do return (path, ← readPath path)
  return fun path =>
    match found.find? fun entry => entry.1 == path with
    | some entry => entry.2
    | none => .error .notFound

/-- Plays one event. -/
def playEvent : Event → IO Unit
  | .out text => do
    let stream ← IO.getStdout
    stream.putStr text
    stream.flush
  | .err text => IO.eprint text
  | .sleep milliseconds => IO.sleep milliseconds.toNat.toUInt32

end BlockCalculus.Command

open BlockCalculus.Command in
/-- Runs the command. A run that pauses goes on being paused until the command is stopped. -/
def main (words : List String) : IO UInt32 := do
  let files ← readPaths ((pathsRead words).filter fun path => !path.toList.contains '\x00')
  let transcript := run files words
  transcript.events.forM playEvent
  match transcript.ending with
  | .done code | .exit code => return code.toUInt32
  | .failed fault => do
    IO.eprintln fault.message
    return 1
  | .paused => do
    repeat IO.sleep 1000
    return 1
