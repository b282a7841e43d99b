import LoxLexer.Command.Outcome

/-!
# `LoxLexer.Main` — the command line

Everything is decided by `Request.run`. This module reads the one file that the request names, looks up
the environment and writes the two streams.
-/

namespace LoxLexer

/-- The file opened for reading, or none if that fails. -/
def openFile (path : String) : IO (Option IO.FS.Handle) := do
  try
    return some (← IO.FS.Handle.mk path .read)
  catch _ =>
    return none

/-- What can be read from an open file; from a directory, nothing. -/
def readAll (handle : IO.FS.Handle) : IO Bytes := do
  try
    return (← handle.readBinToEnd).toList
  catch _ =>
    return []

/-- The raw bytes at a path, or none if nothing can be opened there. -/
def readRaw (path : Bytes) : IO (Option Bytes) := do
  match String.fromUTF8? (ByteArray.mk path.toArray) with
  | none => return none
  | some name =>
    match ← openFile name with
    | none => return none
    | some handle => return some (← readAll handle)

/-- What the request reads, before it runs. -/
def readFor (request : Request) : IO (Option Bytes) := do
  match request.path? with
  | some path => readRaw path
  | none => return none

/-- Runs the program and writes what it has to say. -/
def execute (arguments : List String) : IO UInt32 := do
  let request := Request.ofArguments (arguments.map fun argument => argument.toUTF8.toList)
  let contents ← readFor request
  let debug := wantsDebug ((← IO.getEnv "SLOX_DEBUG").map fun value => value.toUTF8.toList)
  let outcome := request.run (fun _ => contents) debug
  (← IO.getStdout).write (ByteArray.mk outcome.standardOutput.toArray)
  (← IO.getStderr).write (ByteArray.mk outcome.standardError.toArray)
  return outcome.exitCode.toUInt32

end LoxLexer

def main (arguments : List String) : IO UInt32 := LoxLexer.execute arguments
