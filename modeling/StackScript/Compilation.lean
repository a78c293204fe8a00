/-
# From source to chunk

A source is read into tokens, these into a program, and the program into code. The
strings among its constants are put into the pool in the order of their tokens, also
if the source is faulty and gives no chunk.
-/
import StackScript.Program.Code
import StackScript.Program.Parser
import StackScript.StringPool
import StackScript.Token.Lexer

namespace StackScript

/-- The value of a constant, with its string put into the pool. -/
def Literal.link (pool : StringPool) : Literal → Value × StringPool
  | int n => (.int n, pool)
  | double x => (.double x, pool)
  | text s =>
    let (h, pool) := pool.intern (Utf8.encode s)
    (.object h, pool)

/-- The values of some constants, with their strings put into the pool in turn. -/
def Literal.linkAll (pool : StringPool) : List Literal → List Value × StringPool
  | [] => ([], pool)
  | value :: others =>
    let (v, pool) := value.link pool
    let (vs, pool) := linkAll pool others
    (v :: vs, pool)

/-- What a source means: its program and constants, or what is wrong with it. -/
def ParsedSource.ofSource (source : String) : ParsedSource :=
  .ofStream (.scan source.toList)

/-- The chunk of a program whose constants have these values. -/
def Program.chunk (p : Program) (constants : List Value) : Chunk :=
  ⟨p.code.flatMap (·.bytes), constants⟩

/-- The chunk of a source, or its diagnostics, and the pool with its strings. -/
def compile (source : String) (pool : StringPool) : Except (List Diagnostic) Chunk × StringPool :=
  let parsed := ParsedSource.ofSource source
  let (constants, pool) := Literal.linkAll pool parsed.constants
  if parsed.diagnostics.isEmpty then (.ok (parsed.program.chunk constants), pool)
  else (.error parsed.diagnostics, pool)

end StackScript
