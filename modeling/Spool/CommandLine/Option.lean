/-!
The options of the command line: switches, which are given or not, and settings, which take a value;
and what keeps an upload from being begun.
-/

namespace Spool.CommandLine

inductive Switch
  | process
  | move
  | quiet
  | verbose
  | help
  | version
  deriving DecidableEq, Repr

inductive Setting
  | remoteDir
  | suffix
  | maxPending
  | workers
  deriving DecidableEq, Repr

inductive Named
  | switch (s : Switch)
  | setting (s : Setting)
  deriving DecidableEq, Repr

def longNames : List (String × Named) :=
  [("process", .switch .process), ("move", .switch .move), ("quiet", .switch .quiet),
    ("verbose", .switch .verbose), ("help", .switch .help), ("version", .switch .version),
    ("remote-dir", .setting .remoteDir), ("suffix", .setting .suffix),
    ("max-pending", .setting .maxPending), ("workers", .setting .workers)]

def shortNames : List (Char × Named) :=
  [('q', .switch .quiet), ('v', .switch .verbose), ('h', .switch .help), ('V', .switch .version),
    ('w', .setting .workers)]

inductive Stop
  | helpAsked
  | versionAsked
  | unknownOption
  /-- A setting without a value, or an empty file name. -/
  | missingValue
  /-- A switch with a value. -/
  | unwantedValue
  | notANumber
  /-- An option was given twice. -/
  | repeated
  | noDefinition
  deriving DecidableEq, Repr

namespace Stop

/-- Asking for help or for the version is no mistake. -/
def exitCode : Stop → Nat
  | helpAsked | versionAsked => 0
  | _ => 2

def message : Stop → String
  | helpAsked | versionAsked => ""
  | unknownOption => "unexpected argument"
  | missingValue => "a value is required but none was supplied"
  | unwantedValue => "unexpected value for a switch"
  | notANumber => "invalid number"
  | repeated => "an option cannot be used multiple times"
  | noDefinition => "the definition is missing"

end Stop

def help : List String :=
  ["Queues files for upload and lets a fixed pool of worker threads push them",
    "to the configured backend.", "",
    "Usage: upload-spool [OPTIONS] <DEFINITION> [FILES]...", "",
    "      --process            Compress and hash files instead of copying them",
    "      --remote-dir <DIR>   Remote directory for processed files, or prefix for copied files",
    "      --suffix <SUFFIX>    Suffix appended to processed objects",
    "      --max-pending <NUM>  Maximum number of queued jobs",
    "  -w, --workers <NUM>      Number of worker threads",
    "      --move               Remove source files after a successful push",
    "  -q, --quiet              Quiet mode - suppress progress output",
    "  -v, --verbose            Verbose output",
    "  -h, --help               Print help",
    "  -V, --version            Print version"]

end Spool.CommandLine
