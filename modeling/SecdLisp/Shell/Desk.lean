import SecdLisp.Shell.FileTree
import SecdLisp.Shell.Host

/-!
# A host in memory

A desk has a file tree and keeps what was written to the two streams.
-/

namespace SecdLisp

structure Desk where
  tree : FileTree
  out : String
  err : String
  deriving DecidableEq, Repr, Inhabited

namespace Desk

/-- A desk with these files in its working directory and nothing written yet. -/
def ofFiles (files : List (String × Bytes)) : Desk :=
  ⟨files.foldl (fun t (path, bytes) => t.addFile path bytes) .empty, "", ""⟩

instance : Host (StateM Desk) where
  put s := modify fun d => { d with out := d.out ++ s }
  warn s := modify fun d => { d with err := d.err ++ s }
  readBytes path := do return (← get).tree.read path
  writeBytes path bytes := do
    match (← get).tree.write path bytes with
    | .ok tree =>
      modify fun d => { d with tree }
      return .ok ()
    | .error cause => return .error cause

end Desk

end SecdLisp
