import SectionCompiler.Build
import SectionCompiler.Comparison
import SectionCompiler.Settings.Commented
import SectionCompiler.Settings.File
import SectionCompiler.Settings.Search
/-! The actions of the program: building, comparing, and explaining the settings. An action reads
the environment and the disk, and may change the disk. -/

namespace SectionCompiler

inductive Action where
  /-- Builds what a settings file describes; without a path the file is searched for. -/
  | build (settings : Option String) (output : Option String) (release strict dryRun : Bool)
  /-- Compares a section of two documents. -/
  | compare (first second heading : String) (json : Bool)
  /-- Gives the settings file that explains all settings. -/
  | explain (output : Option String)
  deriving DecidableEq, Repr

namespace Action

inductive Outcome where
  | built (report : Build.Report)
  | preview (text : String)
  | compared (comparison : Comparison)
  | comparedInJson (text : String)
  | explanation (text : String)
  | explanationWritten (path : String)
  deriving DecidableEq, Repr

def Outcome.render : Outcome → String
  | built report => report.render
  | preview text => text
  | compared comparison => comparison.render
  | comparedInJson text => text
  | explanation text => text
  | explanationWritten path => s!"Config template written to {path}"

inductive Fault where
  | noSettingsFile
  | settings (fault : Settings.Fault)
  | build (fault : Build.Fault)
  | comparison (fault : Comparison.Fault)
  | output (fault : Output.Fault)
  deriving DecidableEq, Repr

def Fault.message : Fault → String
  | noSettingsFile => "No iniweave.toml or iniweave.yaml found, pass --config"
  | settings fault => fault.message
  | build fault => fault.message
  | comparison fault => fault.message
  | output fault => fault.message

def settingsPath (d : Disk) (given : Option String) : Except Fault String :=
  match given with
  | some path => .ok path
  | none =>
    match Settings.findHere? d with
    | some path => .ok path
    | none => .error .noSettingsFile

/-- The build of a settings file, with another output file if one is given. -/
def prepare (e : Environment) (d : Disk) (settings output : Option String)
    (release strict : Bool) : Except Fault Build := do
  let path ← settingsPath d settings
  let build := Build.ofSettings (← (Settings.load d e path strict).mapError Fault.settings)
  return { build with
    outputPath := output <|> build.outputPath
    release := release || build.release }

def runBuild (b : Build) (d : Disk) (dryRun : Bool) : Except Fault Outcome × Disk :=
  if dryRun then
    ((b.compile d).map (fun (text, _) => Outcome.preview text) |>.mapError Fault.build, d)
  else
    match b.run d with
    | (.ok report, d) => (.ok (.built report), d)
    | (.error fault, d) => (.error (.build fault), d)

def runCompare (d : Disk) (first second heading : String) (json : Bool) :
    Except Fault Outcome := do
  let c ← (Comparison.compareFiles d first second heading).mapError Fault.comparison
  return if json then .comparedInJson c.json else .compared c

/-- The paths that an action is known to read or write, given what the disk tells. -/
def paths (e : Environment) (d : Disk) : Action → List String
  | build settings output release strict _ =>
    let file := (settingsPath d settings).toOption.toList
    match prepare e d settings output release strict with
    | .ok b =>
      file ++ b.inputRoot.toList ++ b.templateRoot.toList ++ b.outputPath.toList ++
        b.registry.flatMap RegistryTable.sources
    | .error _ => file
  | compare first second _ _ => [first, second]
  | explain output => output.toList

def perform (e : Environment) (d : Disk) : Action → Except Fault Outcome × Disk
  | build settings output release strict dryRun =>
    match prepare e d settings output release strict with
    | .error fault => (.error fault, d)
    | .ok b => runBuild b d dryRun
  | compare first second heading json => (runCompare d first second heading json, d)
  | explain none => (.ok (.explanation Settings.commented), d)
  | explain (some path) =>
    match Output.write d path Settings.commented with
    | (.ok (), d) => (.ok (.explanationWritten path), d)
    | (.error fault, d) => (.error (.output fault), d)

end Action

end SectionCompiler
