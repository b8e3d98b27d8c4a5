import CompactShell.Rule.Basic

/-!
# The built-in rules

The rules in the order in which they are tried. Most of them replace the program's name, or the
name and its subcommand, by the compact tool's own; a few programs are only rewritten for the
subcommands that the compact tool knows.
-/

namespace CompactShell.Rule

/-- A command that runs the program `name` with the compact tool in front and is otherwise kept. -/
def named (label : String) (name : String) (guard : Guard) : Rule :=
  ⟨label, guard, .replace [[name]] .space .phrase ("rtk " ++ name)⟩

/-- Any of the phrases, standing alone or in front of arguments, is replaced by `text`. -/
def renamed (label : String) (phrases : List Phrase) (text : String) : Rule :=
  ⟨label, .phrase phrases .edge, .replace phrases .anywhere .phrase text⟩

/-- The program `name` with arguments is replaced by `text`. -/
def withArguments (label name text : String) : Rule :=
  ⟨label, .phrase [[name]] .space, .replace [[name]] .space .phrase text⟩

/-- Each of the words behind the phrase. -/
def followedBy (phrase : Phrase) (words : List String) : List Phrase :=
  words.map fun word => phrase ++ [word]

/-- The phrase by itself and behind a runner of installed packages. -/
def runnable (runners : List String) (phrase : Phrase) : List Phrase :=
  phrase :: runners.map (· :: phrase)

def versionControl : List Rule :=
  [⟨"git", .subcommand .git ["status", "diff", "log", "add", "commit", "push", "pull", "branch",
      "fetch", "stash", "show"] [], .wrap⟩,
    named "gh" "gh" (.phrase (followedBy ["gh"] ["pr", "issue", "run", "api", "release"]) .edge)]

def rust : List Rule :=
  [⟨"cargo", .subcommand .cargo ["test", "build", "clippy", "check", "install", "fmt"] [], .wrap⟩]

def files : List Rule :=
  [withArguments "cat → rtk read" "cat" "rtk read",
    ⟨"grep/rg", .phrase [["rg"], ["grep"]] .space, .grep⟩,
    renamed "ls" [["ls"]] "rtk ls",
    renamed "tree" [["tree"]] "rtk tree",
    ⟨"find", .phrase [["find"]] .space, .find⟩,
    withArguments "diff" "diff" "rtk diff",
    ⟨"head → rtk read", .lineCount, .head⟩]

/-- The ways to run `vitest`: each of two runners may stand in front of it, or both. -/
def vitestPhrases : List Phrase :=
  [["vitest"], ["npx", "vitest"], ["pnpm", "vitest"], ["pnpm", "npx", "vitest"]]

def javaScript : List Rule :=
  [⟨"vitest", .phrase vitestPhrases .edge,
      .replace vitestPhrases .anywhere (.word "run") "rtk vitest run"⟩,
    renamed "pnpm test" [["pnpm", "test"]] "rtk vitest run",
    renamed "npm test" [["npm", "test"]] "rtk npm test",
    ⟨"npm run", .phrase [["npm", "run"]] .space,
      .replace [["npm", "run"]] .space .space "rtk npm "⟩,
    renamed "vue-tsc / tsc" (runnable ["npx"] ["vue-tsc"]) "rtk tsc",
    renamed "pnpm tsc" [["pnpm", "tsc"]] "rtk tsc",
    renamed "tsc" (runnable ["npx"] ["tsc"]) "rtk tsc",
    renamed "pnpm lint" [["pnpm", "lint"]] "rtk lint",
    renamed "eslint" (runnable ["npx"] ["eslint"]) "rtk lint",
    renamed "prettier" (runnable ["npx"] ["prettier"]) "rtk prettier",
    renamed "playwright" (runnable ["npx", "pnpm"] ["playwright"]) "rtk playwright",
    renamed "prisma" (runnable ["npx"] ["prisma"]) "rtk prisma"]

def containers : List Rule :=
  [named "docker compose" "docker" (.phrase [["docker", "compose"]] .edge),
    named "docker" "docker"
      (.subcommand .docker ["ps", "images", "logs", "run", "build", "exec"] [["docker", "compose"]]),
    named "kubectl" "kubectl" (.subcommand .kubectl ["get", "logs", "describe", "apply"] [])]

def network : List Rule :=
  [withArguments "curl" "curl" "rtk curl", withArguments "wget" "wget" "rtk wget"]

def packages : List Rule :=
  [named "pnpm list/outdated" "pnpm"
    (.phrase (followedBy ["pnpm"] ["list", "ls", "outdated"]) .edge)]

def pipSubcommands : List String :=
  ["list", "outdated", "install", "show"]

def python : List Rule :=
  [renamed "pytest" [["pytest"]] "rtk pytest",
    renamed "python -m pytest" [["python", "-m", "pytest"], ["python3", "-m", "pytest"]]
      "rtk pytest",
    named "ruff" "ruff" (.phrase (followedBy ["ruff"] ["check", "format"]) .edge),
    named "pip" "pip" (.phrase (followedBy ["pip"] pipSubcommands) .edge),
    ⟨"uv pip", .phrase (followedBy ["uv", "pip"] pipSubcommands) .edge,
      .replace [["uv", "pip"]] .space .phrase "rtk pip"⟩]

def go : List Rule :=
  [renamed "go test" [["go", "test"]] "rtk go test",
    renamed "go build" [["go", "build"]] "rtk go build",
    renamed "go vet" [["go", "vet"]] "rtk go vet",
    renamed "golangci-lint" [["golangci-lint"]] "rtk golangci-lint"]

/-- All the built-in rules, in the order in which they are tried. -/
def table : List Rule :=
  versionControl ++ rust ++ files ++ javaScript ++ containers ++ network ++ packages ++ python ++ go

def labels : List String :=
  table.map Rule.label

/-- The built-in rule with the given label. -/
def ofLabel? (label : String) : Option Rule :=
  table.find? fun rule => rule.label == label

end CompactShell.Rule
