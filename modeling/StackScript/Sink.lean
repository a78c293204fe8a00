/-
# Where output goes

A sink takes texts, each whole or not at all. Why it refuses one may depend on all that it
was offered before. An empty text is never offered: there is nothing to refuse. A sink can
also fail to flush.
-/

namespace StackScript

/-- A receiver of text. -/
structure Sink where
  /-- Why a text is refused after the texts offered before, the last of them first; `none` if
  it is accepted. -/
  refusal? : List String → String → Option String
  /-- Why flushing fails after the texts offered before; `none` if it succeeds. -/
  stall? : List String → Option String
  /-- The texts offered, the last first. -/
  offered : List String

namespace Sink

/-- Whether a text is accepted after the texts offered before. -/
def accepts (s : Sink) (offered : List String) (text : String) : Bool :=
  (s.refusal? offered text).isNone

/-- A sink that accepts everything. -/
def unlimited : Sink :=
  ⟨fun _ _ => none, fun _ => none, []⟩

/-- Offers a text, and answers why it was refused, if it was. -/
def write (s : Sink) (text : String) : Option String × Sink :=
  if text.isEmpty then (none, s)
  else (s.refusal? s.offered text, { s with offered := text :: s.offered })

/-- Why flushing fails, if it does. -/
def flush (s : Sink) : Option String :=
  s.stall? s.offered

/-- How many line ends may still be accepted of `lines`, after the texts offered. -/
def linesLeft (lines : Nat) : List String → Nat
  | [] => lines
  | text :: offered =>
    let left := linesLeft lines offered
    if left = 0 then 0 else left - text.toList.count '\n'

/-- A sink that accepts texts until `lines` line ends have been accepted, and says why it
accepts no more. -/
def limited (lines : Nat) (why : String) : Sink :=
  ⟨fun offered _ => if linesLeft lines offered = 0 then some why else none, fun _ => none, []⟩

/-- The sink, failing to flush. -/
def stuck (s : Sink) (why : String) : Sink :=
  { s with stall? := fun _ => some why }

end Sink
end StackScript
