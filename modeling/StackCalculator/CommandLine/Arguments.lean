/-!
The arguments of the command. They are read from left to right, and the first one that asks for
help or the version, or is wrong, decides.
-/

namespace StackCalculator.CommandLine

/-- What the arguments of an ordinary invocation say. -/
structure Options where
  path : Option String := none
  printCode : Bool := false
  traceExecution : Bool := false
  deriving DecidableEq

/-- What the command is asked to do. -/
inductive Invocation where
  | help
  | version
  | evaluate (options : Options)
  deriving DecidableEq

namespace Invocation

/-- Takes an argument for the path. There can be one path only, and it is not empty. -/
def withPath? (options : Options) (argument : String) : Option Options :=
  if options.path.isSome || argument.isEmpty then none else some { options with path := argument }

/-- Reads the arguments that are left. Nothing is given for wrong usage: an unknown, repeated or
valued option, or a path too many. Behind `--` every argument is a path. -/
def parseFrom? (options : Options) (onlyPaths : Bool) : List String → Option Invocation
  | [] => some (.evaluate options)
  | argument :: rest =>
      if onlyPaths then
        (withPath? options argument).bind (parseFrom? · true rest)
      else
        match argument.toList with
        | ['-', '-'] => parseFrom? options true rest
        | '-' :: '-' :: name =>
            match String.ofList name with
            | "help" => some .help
            | "version" => some .version
            | "print-code" =>
                if options.printCode then
                  none
                else
                  parseFrom? { options with printCode := true } false rest
            | "trace-execution" =>
                if options.traceExecution then
                  none
                else
                  parseFrom? { options with traceExecution := true } false rest
            | _ => none
        | '-' :: 'h' :: _ => some .help
        | '-' :: 'V' :: _ => some .version
        | '-' :: _ :: _ => none
        | _ => (withPath? options argument).bind (parseFrom? · false rest)

/-- Reads the arguments of the command. -/
def parse? (arguments : List String) : Option Invocation :=
  parseFrom? {} false arguments

end Invocation

/-- What `--help` prints. -/
def helpText : String :=
  "Compiles arithmetic expressions to bytecode and runs them\n" ++
  "\n" ++
  "Usage: rcalc [OPTIONS] [PATH]\n" ++
  "\n" ++
  "Arguments:\n" ++
  "  [PATH]  File holding a single expression. Starts a prompt when omitted\n" ++
  "\n" ++
  "Options:\n" ++
  "      --print-code       Print the bytecode of every compiled expression to stderr\n" ++
  "      --trace-execution  Trace the stack and each executed instruction to stderr\n" ++
  "  -h, --help             Print help\n" ++
  "  -V, --version          Print version\n"

/-- What `--version` prints. -/
def versionText : String :=
  "rcalc 0.1.0\n"

/-- What is said of wrong usage. -/
def usageText : String :=
  "Usage: rcalc [OPTIONS] [PATH]\n\nFor more information, try '--help'.\n"

end StackCalculator.CommandLine
