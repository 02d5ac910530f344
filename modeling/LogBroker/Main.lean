import LogBroker.Demo

/-!
# The command line

Runs the demonstration with the configuration in the file that the environment variable
`KAFKALITE_CONFIG` names, or with the defaults where it is not set. Log lines and errors go to
standard error.
-/
namespace LogBroker

/-- The source that the environment names. -/
def sourceOfEnvironment : IO Config.Source := do
  match ← IO.getEnv "KAFKALITE_CONFIG" with
  | none => return .default
  | some path =>
    let bytes ← try some <$> IO.FS.readBinFile path catch _ => pure none
    return .file path (bytes.map (·.toList))

end LogBroker

/-- Runs the demonstration and prints its report. -/
def main : IO UInt32 := do
  let report := LogBroker.Demo.run (← LogBroker.sourceOfEnvironment)
  for line in report.log ++ report.errors do
    IO.eprintln line
  return UInt32.ofNat report.exit
