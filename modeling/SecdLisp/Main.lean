import SecdLisp.Shell.CommandLine
import SecdLisp.Shell.Repl

/-!
# The program

The front end on the real host: standard streams and the file system.
-/

namespace SecdLisp

/-- The cause behind a failure of the system, from its number, which may come negated. -/
def HostError.ofCode? (code : UInt32) : Option HostError :=
  match (if code < 0x80000000 then code else 0 - code) with
  | 2 => some .notFound
  | 20 => some .notDirectory
  | 21 => some .isDirectory
  | 22 => some .nulInPath
  | 36 => some .nameTooLong
  | _ => none

def HostError.ofIO (e : IO.Error) : HostError :=
  let cause? := match e with
    | .noFileOrDirectory _ code _ => ofCode? code
    | .inappropriateType _ code _ => ofCode? code
    | .invalidArgument _ code _ => ofCode? code
    | _ => none
  cause?.getD (.other e.toString)

instance : Host IO where
  put s := do
    let out ← IO.getStdout
    out.putStr s
    out.flush
  warn s := do (← IO.getStderr).putStr s
  readBytes path := do
    match ← (IO.FS.readBinFile path).toBaseIO with
    | .ok bytes => return .ok bytes.toList
    | .error e => return .error (.ofIO e)
  writeBytes path bytes := do
    match ← (IO.FS.writeBinFile path ⟨bytes.toArray⟩).toBaseIO with
    | .ok () => return .ok ()
    | .error e => return .error (.ofIO e)

/-- More steps than a machine can take in a lifetime. -/
def allSteps : Nat := 1 <<< 62

def readLine (input : IO.FS.Stream) : IO (Option Bytes) := do
  let line ← input.getLine
  if line.isEmpty then return none
  let bytes := Utf8.encode line
  return some (if bytes.getLast? = some 10 then bytes.dropLast else bytes)

partial def converseFrom (manner : Manner) (input : IO.FS.Stream) (r : Repl) : IO Repl := do
  Host.put r.prompt
  match ← readLine input with
  | none => return r
  | some line =>
    let (more, r) ← r.feedBytes manner line
    if more then converseFrom manner input r else return r

/-- Talk to a user at a terminal, or evaluate all of an input that is none. -/
def converse (manner : Manner) (s : Session) : IO (Option Session) := do
  let input ← IO.getStdin
  if ← input.isTty then
    Host.put Repl.banner
    return some (← converseFrom manner input ⟨s, ""⟩).session
  else
    CommandLine.piped manner (return (← input.readBinToEnd).toList) s

end SecdLisp

def main (arguments : List String) : IO UInt32 := do
  SecdLisp.CommandLine.start SecdLisp.allSteps arguments (← IO.getEnv "SECD_LOG")
    SecdLisp.converse
