import Abacus.Session

namespace Abacus

/-!
# The command line

* `Invocation` — what the arguments of the program ask for.
* `Invocation.ofArguments` — reads them from left to right; the first that is wrong, or that asks
  for something else than a script, decides.
-/

/-- What the arguments of the program ask for. -/
inductive Invocation where
  | run (script : String) (config : Config)
  /-- No script is given, so lines are read and evaluated. -/
  | prompt (config : Config)
  | version
  | help
  | misuse
  deriving DecidableEq

namespace Invocation

/-- What the arguments so far ask for. -/
structure Options where
  script : Option String := none
  disassemble : Bool := false
  noColor : Bool := false

/-- What the options ask for when no argument is left. -/
def Options.invocation (o : Options) : Invocation :=
  let config : Config :=
    { disassemble := o.disassemble
      color := !o.noColor }
  match o.script with
  | some script => .run script config
  | none => .prompt config

/-- The options with a script; there is at most one, and it has a name. -/
def Options.withScript? (o : Options) (script : String) : Option Options :=
  if script.isEmpty || o.script.isSome then none else some { o with script := some script }

/-- Reads arguments of which none is an option. -/
def ofPositional (o : Options) : List String → Invocation
  | [] => o.invocation
  | arg :: args =>
    match o.withScript? arg with
    | some o => ofPositional o args
    | none => .misuse

/-- What a short option asks for; its first letter decides. -/
def ofShort : List Char → Invocation
  | 'V' :: _ => .version
  | 'h' :: _ => .help
  | _ => .misuse

/-- Reads arguments from left to right. -/
def ofOptions (o : Options) : List String → Invocation
  | [] => o.invocation
  | "--" :: args => ofPositional o args
  | "--version" :: _ => .version
  | "--help" :: _ => .help
  | "--disassemble" :: args =>
    if o.disassemble then .misuse else ofOptions { o with disassemble := true } args
  | "--no-color" :: args =>
    if o.noColor then .misuse else ofOptions { o with noColor := true } args
  | arg :: args =>
    match arg.toList with
    | '-' :: '-' :: _ => .misuse
    | '-' :: c :: cs => ofShort (c :: cs)
    | _ =>
      match o.withScript? arg with
      | some o => ofOptions o args
      | none => .misuse

/-- What arguments ask for. -/
def ofArguments (args : List String) : Invocation := ofOptions {} args

/-- The exit status after a wrong argument. -/
def misuseCode : Nat := 2

/-- The name and version of the program. -/
def versionText : String := "nyx 0.1.0\n"

/-- How the program is used. -/
def usageText : String := "Usage: nyx [OPTIONS] [SCRIPT]\n"

/-- The arguments that the program takes. -/
def helpText : String :=
  "Nyx bytecode compiler and virtual machine\n\n" ++ usageText
    ++ "\nArguments:\n"
    ++ "  [SCRIPT]  Script to run; opens a prompt when omitted\n"
    ++ "\nOptions:\n"
    ++ "      --disassemble  Print the bytecode listing before running\n"
    ++ "      --no-color     Disable colored diagnostics\n"
    ++ "  -h, --help         Print help\n"
    ++ "  -V, --version      Print version\n"

end Invocation

end Abacus
