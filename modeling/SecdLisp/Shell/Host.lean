import SecdLisp.Error

/-!
# Hosts

What the front end needs from its surroundings: two streams to write to and files. The front
end is written once for every host.
-/

namespace SecdLisp

class Host (m : Type → Type) where
  /-- Write to standard output. -/
  put : String → m Unit
  /-- Write to standard error. -/
  warn : String → m Unit
  readBytes : String → m (Except HostError Bytes)
  writeBytes : String → Bytes → m (Except HostError Unit)

namespace Host

variable {m : Type → Type} [Monad m] [Host m]

def putLine (s : String) : m Unit := put (s ++ "\n")

def warnLine (s : String) : m Unit := warn (s ++ "\n")

def readText (path : String) : m (Except HostError String) := do
  match ← readBytes path with
  | .error cause => return .error cause
  | .ok bytes =>
    match Utf8.decode bytes with
    | .ok text => return .ok text
    | .error _ => return .error .notUtf8

end Host

end SecdLisp
