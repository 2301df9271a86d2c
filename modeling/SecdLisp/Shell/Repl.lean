import SecdLisp.Shell.Evaluate
import SecdLisp.Text.Balance
import SecdLisp.Text.Whitespace

/-!
# The interactive shell

Lines are gathered until their parentheses balance and are then evaluated together. A line that
starts with a colon, where no form is open, is a command.
-/

namespace SecdLisp

structure Repl where
  session : Session
  /-- The lines of a form that is still open. -/
  pending : String

namespace Repl

open Host

variable {m : Type → Type} [Monad m] [Host m]

def banner : String := "SECD Lisp\nType :help for help, :quit to exit\n\n"

def help : String :=
  "REPL commands:
  :quit / :q      Exit the REPL
  :help / :h      Show this help
  :code EXPR      Show the compiled code of EXPR without running it
  :save PATH      Save the global environment to an image
  :load PATH      Restore the global environment from an image

Special forms:
  (fn (params) body)  (lambda ...)  (if test then else)
  (let (names) (values) body)  (letrec (names) (values) body)
  (quote x)  'x  `(a ,b)  (set name value)  (defm name (params) body)
Builtins: + - * / car cdr cons eq < > <= >= list
Rest parameters: (fn (a &rest more) ...)
"

def prompt (r : Repl) : String := if r.pending.isEmpty then "> " else "  "

/-- Compile an expression and show the code without running it. -/
def showCode (manner : Manner) (text : String) (s : Session) : m Session := do
  match (do Session.compile manner.steps (← Session.read text) : SessionM Value) s with
  | .ok code s =>
    putLine (s.print code)
    return s
  | .error e s =>
    warnLine e.message
    return s

def announce (done path : String) : Except Error Unit → m Unit
  | .ok () => putLine (done ++ " " ++ path)
  | .error e => warnLine e.message

/-- Carry out a command line. The answer says whether the shell goes on. -/
def command (manner : Manner) (line : List Char) (s : Session) : m (Bool × Session) := do
  let (word, rest) := splitWord line
  let word := String.ofList word
  let arg := String.ofList (trim rest)
  match word with
  | ":quit" | ":q" => return (false, s)
  | ":help" | ":h" =>
    put help
    return (true, s)
  | ":code" => return (true, ← showCode manner arg s)
  | ":save" | ":load" =>
    if arg.isEmpty then
      warnLine (word ++ " needs a file path")
      return (true, s)
    else if word = ":save" then
      let (r, s) ← Shell.saveImage arg s
      announce "saved" arg r
      return (true, s)
    else
      let (r, s) ← Shell.loadImage arg s
      announce "loaded" arg r
      return (true, s)
  | _ =>
    warnLine s!"Unknown command {word} (try :help)"
    return (true, s)

/-- Take in one line. The answer says whether the shell goes on. -/
def feed (manner : Manner) (line : String) (r : Repl) : m (Bool × Repl) := do
  if r.pending.isEmpty && (trimStart line.toList).head? == some ':' then
    let (more, session) ← command manner (trim line.toList) r.session
    return (more, { r with session })
  else
    let text := if r.pending.isEmpty then line else r.pending ++ "\n" ++ line
    if !isBalanced text then return (true, { r with pending := text })
    let form := String.ofList (trim text.toList)
    if form.isEmpty then return (true, { r with pending := "" })
    let (_, session) ← Shell.evalAndPrint manner form r.session
    return (true, ⟨session, ""⟩)

/-- Take in one line as it was typed. A line that is not text ends the shell. -/
def feedBytes (manner : Manner) (line : Bytes) (r : Repl) : m (Bool × Repl) := do
  match Utf8.decode line with
  | .ok line => feed manner line r
  | .error _ =>
    warnLine ("Error: " ++ HostError.notUtf8.message)
    return (false, r)

/-- Read lines until they end or the shell is left, with a prompt before each. -/
def converse (manner : Manner) : List Bytes → Repl → m Repl
  | [], r => do
    put r.prompt
    return r
  | line :: lines, r => do
    put r.prompt
    let (more, r) ← feedBytes manner line r
    if more then converse manner lines r else return r

/-- Run the shell on lines that are known beforehand. -/
def run (manner : Manner) (lines : List Bytes) (s : Session) : m Session := do
  put banner
  return (← converse manner lines ⟨s, ""⟩).session

/-- The lines of an input; each ends with a newline, the last one perhaps without. -/
def lines (input : Bytes) : List Bytes :=
  let (last, done) := input.foldl (fun (line, done) b =>
    if b = 10 then ([], line.reverse :: done) else (b :: line, done)) ([], [])
  (if last.isEmpty then done else last.reverse :: done).reverse

end Repl

end SecdLisp
