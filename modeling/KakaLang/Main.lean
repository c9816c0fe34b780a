import KakaLang.CommandLine

/-!
The program on a real console. A run is a function of the answers it gets, so it is carried out as
far as the answers read so far and a number of steps allow, and started again with one more answer
or twice the steps. What it has shown before is not shown again. When the time is up, the run is
started once more with a clock that says so at the first look that has not been taken yet.
-/

namespace KakaLang.CommandLine

def readFile (path : String) : IO Contents := do
  try
    let bytes ← IO.FS.readBinFile path
    return match String.fromUTF8? bytes with
      | some source => .text source
      | none => .notText
  catch e =>
    return match e with
      | .noFileOrDirectory .. => .missing
      | .inappropriateType .. => .directory
      | e => .unreadable (toString e)

partial def readBytes (input : IO.FS.Stream) (line : ByteArray) : IO ByteArray := do
  let chunk ← input.read 1
  if chunk.isEmpty then return line
  let line := line ++ chunk
  if chunk.toList = [10] then return line else readBytes input line

/-- A line of standard input, or nothing at its end. -/
def readAnswer : IO (Option String) := do
  let line ← readBytes (← IO.getStdin) .empty
  return if line.isEmpty then none else answer? line

/-- How far a run has got. -/
structure Progress where
  answers : List (Option String) := []
  shown : Nat := 0
  steps : Nat := 10000
  /-- The look at the clock from which on the time is up. -/
  deadline : Option Nat := none

def Progress.settings (p : Progress) (limits : Limits) : Settings :=
  { limits := limits
    clock := fun look =>
      match p.deadline, limits.time with
      | some first, some millis => if first ≤ look then 1000 * millis + 1 else 0
      | _, _ => 0 }

def Progress.machine (p : Progress) : Machine :=
  { console := { answers := p.answers, closed := false } }

partial def converse (limits : Limits) (source : String) (started : Nat) (p : Progress) :
    IO UInt32 := do
  let (failure, m) := match Session.run (p.settings limits) p.steps source p.machine with
    | .ok _ m => (none, m)
    | .error e m => (some e, m)
  let output ← IO.getStdout
  for entry in m.console.transcript.toList.drop p.shown do
    output.putStr entry.screenText
  output.flush
  let p := { p with shown := m.console.transcript.size }
  match failure with
  | none => return 0
  | some .cut =>
    if p.answers.length < m.console.prompts.length then
      converse limits source started { p with answers := p.answers ++ [← readAnswer] }
    else
      let passed := (← IO.monoMsNow) - started
      let late := limits.time.any (· < passed)
      let deadline := if late && p.deadline.isNone then some m.looks else p.deadline
      converse limits source started { p with steps := 2 * p.steps, deadline := deadline }
  | some e =>
    (← IO.getStderr).putStr (Report.failure "" e.message).complaint
    return 1

def emit (r : Report) : IO UInt32 := do
  (← IO.getStdout).putStr r.output
  (← IO.getStderr).putStr r.complaint
  return r.code.toUInt32

end KakaLang.CommandLine

open KakaLang CommandLine in
def main (arguments : List String) : IO UInt32 := do
  let settings := [Setting.outputLines, .time, .callDepth].map Setting.environmentName
  let values ← settings.mapM fun name => return (name, ← IO.getEnv name)
  match options (fun name => (values.lookup name).join) arguments with
  | .error refusal => emit (.ofRefusal refusal)
  | .ok o =>
    match (← readFile o.file).source o.file with
    | .error message => emit (.failure "" message)
    | .ok source =>
      match o.mode with
      | .tokens => emit (listTokens source)
      | .format => emit (format source)
      | .run =>
        -- No time at all is up at the first look.
        let deadline := if o.limits.time = some 0 then some 0 else none
        converse o.limits source (← IO.monoMsNow) { deadline := deadline }
