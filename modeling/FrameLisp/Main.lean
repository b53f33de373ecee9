import FrameLisp.Console

/-!
# The command line

Runs the console on the standard streams and the files of the system.
-/

namespace FrameLisp

/-- Describe a failure of the system by its own words and its code. -/
def systemMessage : IO.Error → String
  | .noFileOrDirectory .. => Shelf.missing
  | .permissionDenied _ code details | .inappropriateType _ code details =>
    s!"{details} (os error {code})"
  | e => toString e

/-- The message for a file whose bytes are no text. -/
def notText : String := "stream did not contain valid UTF-8"

/-- Access to the files of the system. -/
def systemFiles : Files IO where
  read name := do
    try
      let bytes ← IO.FS.readBinFile name
      pure ((String.fromUTF8? bytes).elim (.error notText) .ok)
    catch e => pure (.error (systemMessage e))
  write name content := do
    try
      IO.FS.writeFile name content
      pure (.ok ())
    catch e => pure (.error (systemMessage e))

/-- The number of seconds between two readings of the system's clock in nanoseconds. -/
def seconds (since now : Nat) : Float := Float.ofNat (now - since) / 1000000000

/-- Answer lines until there are no more or one of them ends the session. -/
partial def loop (c : Console) (started : Nat) : IO Unit := do
  let stdout ← IO.getStdout
  stdout.putStr Console.prompt
  stdout.flush
  let line ← (← IO.getStdin).getLine
  if line.isEmpty then return
  match Command.ofLine line with
  | .quit => return
  | command =>
    let time := seconds started (← IO.monoNanosNow)
    let ((out, err), c) ← c.reply systemFiles (fun _ => time) command
    stdout.putStr out
    stdout.flush
    (← IO.getStderr).putStr err
    loop c started

end FrameLisp

/-- Run the console. -/
def main : IO Unit := do
  IO.print FrameLisp.Console.banner
  FrameLisp.loop FrameLisp.Console.start (← IO.monoNanosNow)
