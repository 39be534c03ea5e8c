/-
# `Unmask.Main` — the command

Reads what the command asks for, runs it, and shows or saves what comes out.
-/
import Unmask.CommandLine

namespace Unmask

def FileState.ofBytes (bytes : ByteArray) : FileState :=
  match String.fromUTF8? bytes with
  | some t => .text t
  | none => .unreadable

def readFileState (path : String) : IO FileState := do
  try
    return .ofBytes (← IO.FS.readBinFile path)
  catch
    | .noFileOrDirectory .. => return .missing
    | _ => return .unreadable

partial def readStandardInput (stream : IO.FS.Stream) (done : ByteArray) : IO ByteArray := do
  let chunk ← stream.read 65536
  if chunk.isEmpty then return done else readStandardInput stream (done ++ chunk)

def readEnvironment : IO (List (String × String)) := do
  match ← readFileState "/proc/self/environ" with
  | .text listing =>
      return (listing.splitOn "\x00").map fun entry =>
        let name := String.ofList (entry.toList.takeWhile (· != '='))
        (name, String.ofList (entry.toList.drop (name.length + 1)))
  | _ => return []

def Surroundings.find (c : Command) : IO Surroundings := do
  let found ← c.files.mapM fun path => return (path, ← readFileState path)
  let standardInput ←
    if c.readsInput then FileState.ofBytes <$> readStandardInput (← IO.getStdin) .empty
    else pure (.text "")
  return {
    environment := ← readEnvironment
    standardInput
    file := fun path => ((found.find? fun f => f.1 == path).map Prod.snd).getD .missing }

def Ending.carryOut (e : Ending) : IO UInt32 := do
  match e with
  | .shows text code =>
      (← IO.getStdout).putStr text
      return code.toUInt32
  | .saves path text code =>
      try
        IO.FS.writeFile path text
        return code.toUInt32
      catch e =>
        IO.eprintln (RunError.storage (toString e)).message
        return 1
  | .fails e =>
      IO.eprintln e.message
      return (Ending.fails e).exitCode.toUInt32
  | .misused =>
      IO.eprintln "Usage: js-deobfuscator [OPTIONS] <INPUT>"
      return 2

end Unmask

def main (args : List String) : IO UInt32 := do
  let command := Unmask.Command.ofArguments args
  (command.run (← Unmask.Surroundings.find command)).carryOut
