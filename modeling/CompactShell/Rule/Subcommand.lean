import CompactShell.Shell.Word
import CompactShell.Text.Choice

/-!
# Subcommands

Some programs take options of their own in front of the subcommand. Each program has a table of
them; what is in no table is taken for the subcommand, so an unknown option at worst hides one.
-/

namespace CompactShell.Rule

open Shell Text

/-- The options that a program takes in front of its subcommand. -/
structure GlobalOptions where
  /-- Options whose value is the next word. -/
  valued : List String
  /-- Options without a value. -/
  bare : List String
  /-- Options whose value may be attached to them. -/
  attached : List String
  deriving DecidableEq, Repr

namespace GlobalOptions

/-- The word holds an option together with its value. -/
def holdsValue (options : GlobalOptions) (word : List Char) : Bool :=
  (startsWith "--" word && word.contains '=') ||
    options.attached.any fun flag => startsWith flag word && flag.length < word.length

/-- The first word that is neither an option nor an option's value. There may be none. -/
def subcommand (options : GlobalOptions) : List (List Char) → List Char
  | [] => []
  | word :: rest =>
    if isOneOf options.bare word then options.subcommand rest
    else if isOneOf options.valued word then
      match rest with
      | [] => []
      | _ :: rest => options.subcommand rest
    else if options.holdsValue word then options.subcommand rest
    else word

def git : GlobalOptions where
  valued := ["-C", "-c", "--exec-path", "--git-dir", "--namespace", "--super-prefix",
    "--work-tree"]
  bare := ["-p", "-P", "--paginate", "--no-pager", "--bare", "--no-optional-locks",
    "--no-replace-objects", "--literal-pathspecs", "--glob-pathspecs", "--noglob-pathspecs",
    "--icase-pathspecs"]
  attached := ["-C", "-c"]

def docker : GlobalOptions where
  valued := ["-H", "--host", "--context", "-c", "--config", "-l", "--log-level"]
  bare := ["-D", "--debug", "--tls", "--tlsverify"]
  attached := ["-H"]

def kubectl : GlobalOptions where
  valued := ["-n", "--namespace", "--context", "--kubeconfig", "--cluster", "--user", "-s",
    "--server"]
  bare := ["--insecure-skip-tls-verify"]
  attached := ["-n"]

end GlobalOptions

/-- The programs whose subcommand decides whether a command is rewritten. -/
inductive Program where
  | git
  | docker
  | kubectl
  | cargo
  deriving DecidableEq, Repr

namespace Program

def name : Program → String
  | git => "git"
  | docker => "docker"
  | kubectl => "kubectl"
  | cargo => "cargo"

/-- The subcommand among the words behind the program's name. In front of a subcommand of `cargo`
a toolchain selector is passed over, and no option. -/
def subcommandOf : Program → List (List Char) → List Char
  | git, args => GlobalOptions.git.subcommand args
  | docker, args => GlobalOptions.docker.subcommand args
  | kubectl, args => GlobalOptions.kubectl.subcommand args
  | cargo, ('+' :: _) :: args => args.headD []
  | cargo, args => args.headD []

/-- The subcommand of a command, whatever its first word is. -/
def subcommand (program : Program) (command : List Char) : List Char :=
  program.subcommandOf (values command).tail

end Program

end CompactShell.Rule
