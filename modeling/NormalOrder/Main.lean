import NormalOrder.CommandLine

/-!
# The executable

Runs the program on the real files, keyboard and screen. All decisions are those of
`NormalOrder.Program`; this module reads, writes and waits.
-/

namespace NormalOrder.Executable

/-- How many steps an evaluation may take: more than any machine has time for. -/
def stepBound : Nat := 1 <<< 63

/-- Reads a file; `none` if it cannot be read. -/
def readFile? (path : String) : IO (Option String) := do
  try
    return some (← IO.FS.readFile path)
  catch _ =>
    return none

/-- Writes text and lets it be seen at once. -/
def say (s : String) : IO Unit := do
  let out ← IO.getStdout
  out.putStr s
  out.flush

/-- Talks to the user until the shell ends, and gives the exit status. -/
partial def talk (style : Style) (sh : Shell) : IO Int := do
  say sh.prompt
  let typed ← (← IO.getStdin).getLine
  let line := if typed.isEmpty then Program.endOfInput else (typed.dropEndWhile (· == '\n')).toString
  let (said, outcome, sh') := Program.answer style stepBound sh line
  say said
  match outcome with
  | .ok false => talk style sh'
  | _ => return Program.status (outcome.map fun _ => ())

/-- Runs the program and gives its exit status. -/
def runProgram (argv : List String) : IO UInt32 := do
  let style : Style := if ← (← IO.getStdout).isTty then .terminal else .plain
  let status ← match Request.ofStrings argv with
    | .run { file := none, trace, options } =>
      match Shell.start { verbose := trace, wording := { style } } options with
      | .ok sh => do
        say (Shell.banner ++ "\n")
        talk style sh
      | .error _ => pure 1
    | .run { file := some path, .. } => do
      let contents ← readFile? path
      let t := Program.run style stepBound (fun _ => contents) "" argv
      say t.out
      pure t.status
    | _ => do
      let t := Program.run style stepBound (fun _ => none) "" argv
      say t.out
      (← IO.getStderr).putStr t.err
      pure t.status
  return UInt32.ofNat status.toNat

end NormalOrder.Executable

/-- The program. -/
def main (argv : List String) : IO UInt32 := NormalOrder.Executable.runProgram argv
