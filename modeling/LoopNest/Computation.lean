import LoopNest.Domain.Header
import LoopNest.Field.Collect
import LoopNest.Program.Parser

/-! # Computations

A program is a list of computations. Each is opened by a header, which describes the space, and
holds the statements up to the next header, which are carried out at every point of that space.
-/

namespace LoopNest

structure Computation where
  space : Space
  body : List Stmt
  fields : Fields
deriving Inhabited

namespace Computation

/-- The statements before the first header, and each header with the statements behind it. -/
def group : List Stmt → List Stmt × List (Stmt × List Stmt)
  | [] => ([], [])
  | s :: rest =>
    let (loose, groups) := group rest
    if s.isHeader then ([], (s, loose) :: groups) else (s :: loose, groups)

/-- The headers are read in order. -/
def spaces : List (Stmt × List Stmt) → Lowering (List (Space × List Stmt))
  | [] => return []
  | (header, body) :: groups => do
    let space ← Lowering.header header
    return (space, body) :: (← spaces groups)

/-- The fields of each body are collected in order, and there has to be one. -/
def complete : List (Space × List Stmt) → Except CompileError (List Computation)
  | [] => return []
  | (space, body) :: rest => do
    let fields ← Fields.ofBody space body
    if fields.isEmpty then throw (.malformed (.noFields space.name))
    return ⟨space, body, fields⟩ :: (← complete rest)

/-- The computations of a list of statements, which starts with a header. -/
def ofStmts (stmts : List Stmt) : Lowering (List Computation) := do
  match group stmts with
  | (s :: _, _) => throw (.malformed (.missingHeader s.span))
  | ([], []) => throw (.malformed .noComputations)
  | ([], groups) => Lowering.liftExcept (complete (← spaces groups))

end Computation

/-- The computations that a text describes, or the error that ended the reading, with the warnings
given on the way. -/
structure Lowered where
  result : Except CompileError (List Computation)
  warnings : List Warning

/-- Reads a text and every header and body in it. -/
def lower (source : String) : Lowered :=
  match Program.parse source with
  | .error e => ⟨.error e, []⟩
  | .ok program =>
    match (Computation.ofStmts program.body).run Draft.empty with
    | .ok computations d => ⟨.ok computations, d.warnings⟩
    | .error e d => ⟨.error e, d.warnings⟩

end LoopNest
