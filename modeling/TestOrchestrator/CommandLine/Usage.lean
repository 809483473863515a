import TestOrchestrator.CommandLine.Options
/-!
# What is said about the command line

* `usageText` lists the options.
* `UsageError.message` says why a command line is not run.
-/

namespace TestOrchestrator.CommandLine

/-- The options and what they do. -/
def usageLines : List String :=
  ["Run a test-run definition and emit a JSON or JUnit XML report",
    "",
    "Usage: suiterun [OPTIONS]",
    "",
    "Options:",
    "  -d, --dir <DIR>            Run directory; relative test paths resolve against it",
    "  -r, --run <RUN>            Run-definition file",
    "  -g, --group <GROUP>        Group to run (repeatable)",
    "  -t, --test <TEST>          Ad hoc test to run (repeatable, ignored when --suite is set)",
    "  -s, --suite <SUITE>        Named suite, optionally restricted: NAME or NAME:t1,t2",
    "  -I, --include <DIR>        Include search directory (repeatable)",
    "  -p, --param <NAME=VALUE>   Parameter binding (repeatable)",
    "      --format <FORMAT>      Report format: json or xml",
    "      --json                 Emit JSON instead of XML",
    "      --interpreter <PROG>   Run test paths through this program",
    "  -v, --verbose              Enable verbose output",
    "      --log-level <LEVEL>    Log level (trace, debug, info, warn, error)",
    "      --redact               Hide parameter values in logs",
    "      --labels <LABELS>      Labels passed to every test (comma-separated)",
    "      --priority <PRIORITY>  Priority passed to every test",
    "  -h, --help                 Print help",
    "  -V, --version              Print version"]

/-- The text that is printed when the usage is asked for. -/
def usageText : String := Text.joined "\n" usageLines ++ "\n"

/-- Why a command line is not run. -/
def UsageError.message : UsageError → String
  | unknownArgument => "unexpected argument"
  | missingValue => "a value is required"
  | badValue (some why) => why
  | badValue none => "invalid value"
  | conflict => "the arguments cannot be used together"
  | needlessValue => "unexpected value for a flag"
  | help => usageText
  | version => versionText

end TestOrchestrator.CommandLine
