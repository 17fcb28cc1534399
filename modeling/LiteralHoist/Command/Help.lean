import LiteralHoist.Text.Basic

/-!
# Help
-/

set_option autoImplicit false

namespace LiteralHoist.Command

def commandName : Text := "dupconst"

def usageLine : Text :=
  "usage: dupconst [-w] [-l] [-d] [--config file] file..."

def helpText : Text :=
  "Dupconst rewrites tree documents so that string literals used more than once in a class " ++
  "refer to a single private static final constant.\n\n" ++
  "Usage:\n" ++
  "  dupconst [flags] file...\n\n" ++
  "Flags:\n" ++
  "      --color         color diff output\n" ++
  "      --config file   read settings from YAML file\n" ++
  "  -d, --diff          display diffs instead of rewriting files\n" ++
  "  -h, --help          help for dupconst\n" ++
  "  -j, --jobs n        process n files at a time (default GOMAXPROCS)\n" ++
  "  -l, --list          list files whose classes would change\n" ++
  "      --min int       minimum occurrences of a value (default 2)\n" ++
  "  -v, --verbose       log every planned change\n" ++
  "  -w, --write         write result to the source file instead of stdout\n"

def shells : List (Text × Text) :=
  (["bash", "fish", "powershell", "zsh"] : List Text).map fun shell =>
    (shell, "Generate the autocompletion script for " ++ shell)

def padded (width : Nat) (t : Text) : Text :=
  t ++ Text.ofChars (List.replicate (width - t.size) ' ')

def shellLines : List Text :=
  shells.map fun (shell, purpose) => "  " ++ padded 11 shell ++ " " ++ purpose ++ "\n"

def completionHelpText : Text :=
  "Generate the autocompletion script for dupconst for the specified shell.\n" ++
  "See each sub-command's help for details on how to use the generated script.\n\n" ++
  "Usage:\n" ++
  "  dupconst completion [command]\n\n" ++
  "Available Commands:\n" ++
  Text.join shellLines ++
  "\nFlags:\n" ++
  "  -h, --help   help for completion\n\n" ++
  "Use \"dupconst completion [command] --help\" for more information about a command.\n"

end LiteralHoist.Command
