import LoxLexer.Bytes

/-!
# `LoxLexer.Command.Request` — what an argument list asks for

Arguments are taken from left to right. Help, version, an argument that is no option and a file option
with nothing after it decide the request at once. Everything else only sets the path, of which the last
one counts, or the quiet flag.
-/

namespace LoxLexer

/-- What the command line asks for. -/
inductive Request where
  | help
  | version
  /-- The file option came last. -/
  | missingFile (option : Bytes)
  | unknownOption (argument : Bytes)
  /-- No path was given, or an empty one came last. -/
  | noInput
  | scan (path : Bytes) (quiet : Bool)
deriving DecidableEq, Repr

namespace Request

def isHelp (argument : Bytes) : Bool := argument == ascii "--help" || argument == ascii "-h"

def isVersion (argument : Bytes) : Bool := argument == ascii "--version" || argument == ascii "-v"

def isQuiet (argument : Bytes) : Bool := argument == ascii "--quiet" || argument == ascii "-q"

/-- The argument after this one is a path, whatever it looks like. -/
def isFile (argument : Bytes) : Bool := argument == ascii "--file" || argument == ascii "-f"

/-- The argument is a path by itself: it is not empty and starts with no dash. -/
def isPath (argument : Bytes) : Bool := !argument.isEmpty && argument.head? != some '-'.toUInt8

/-- The request of the arguments that are left, after a path (empty for none) and a quiet flag. -/
def ofArgumentsAfter (path : Bytes) (quiet : Bool) : List Bytes → Request
  | [] => if path.isEmpty then .noInput else .scan path quiet
  | argument :: rest =>
    if isHelp argument then .help
    else if isVersion argument then .version
    else if isQuiet argument then ofArgumentsAfter path true rest
    else if isFile argument then
      match rest with
      | [] => .missingFile argument
      | file :: rest => ofArgumentsAfter file quiet rest
    else if isPath argument then ofArgumentsAfter argument quiet rest
    else .unknownOption argument

/-- The request of an argument list. -/
def ofArguments (arguments : List Bytes) : Request := ofArgumentsAfter [] false arguments

/-- The path that the request reads, if it reads any. -/
def path? : Request → Option Bytes
  | scan path _ => some path
  | _ => none

end Request

end LoxLexer
