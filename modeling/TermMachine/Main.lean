import TermMachine.Session.Basic

/-! # The command line program -/
namespace TermMachine.Session

def reportError (error : String) : IO Unit := do (← IO.getStderr).putStr ("Error: " ++ error)

/-- Prompts, reads a line and replies, until the input or the dialogue ends. -/
partial def converse (input output errors : IO.FS.Stream) (d : Dialogue) : IO UInt32 := do
  output.putStr d.prompt
  output.flush
  let text ← input.getLine
  if text.isEmpty then
    output.putStr "\n"
    return 0
  let reply := d.line text
  output.putStr reply.output
  errors.putStr reply.reports
  match reply.next with
  | .ok next => converse input output errors next
  | .error e =>
    output.flush
    reportError e
    return 1

end TermMachine.Session

open TermMachine.Session in
def main (args : List String) : IO UInt32 := do
  match task args with
  | .dialogue start => converse (← IO.getStdin) (← IO.getStdout) (← IO.getStderr) start
  | .done result =>
    (← IO.getStdout).putStr result.output
    (← IO.getStdout).flush
    (← IO.getStderr).putStr result.reports
    if result.code = 2 then (← IO.getStderr).putStr Arguments.usage
    if let some e := result.error then reportError e
    return UInt32.ofNat result.code
