import DeskCalculator.CommandLine.Arguments

/-!
The pages of the help, and the version.
-/
namespace DeskCalculator.CommandLine

def versionText : String := "calculatrice-rpn 0.1.0"

def optionLines : List String :=
  ["Options:",
    "      --config <PATH>    Fichier de configuration (défaut : " ++
      "<config_dir>/calculatrice-rpn/config.toml)",
    "      --rpn              L’entrée est en notation postfixe",
    "      --trace            Affiche la trace d’évaluation",
    "      --precision <N>    Chiffres après la virgule (1..=28)",
    "      --rounding <MODE>  " ++
      "ToEven, AwayFromZero, ToZero, ToNegativeInfinity, ToPositiveInfinity",
    "      --json             Réponse JSON sur stdout",
    "  -h, --help             Print help"]

def Page.lines : Page → List String
  | top =>
    ["Calculatrice infixe / RPN",
      "",
      "Usage: calculatrice-rpn [OPTIONS] [COMMAND]",
      "",
      "Commands:",
      "  eval  Évalue une expression",
      "  keys  Rejoue une suite de touches (ex: 1 2 + 3 =)",
      "  help  Print this message or the help of the given subcommand(s)",
      "",
      "Options:",
      "      --config <PATH>  Fichier de configuration (défaut : " ++
        "<config_dir>/calculatrice-rpn/config.toml)",
      "  -h, --help           Print help",
      "  -V, --version        Print version"]
  | eval =>
    ["Évalue une expression",
      "",
      "Usage: calculatrice-rpn eval [OPTIONS] <EXPRESSION>",
      "",
      "Arguments:",
      "  <EXPRESSION>  ",
      ""] ++ optionLines
  | keys =>
    ["Rejoue une suite de touches (ex: 1 2 + 3 =)",
      "",
      "Usage: calculatrice-rpn keys [OPTIONS] <KEYS>...",
      "",
      "Arguments:",
      "  <KEYS>...  ",
      ""] ++ optionLines
  | help =>
    ["Print this message or the help of the given subcommand(s)",
      "",
      "Usage: calculatrice-rpn help [COMMAND]...",
      "",
      "Arguments:",
      "  [COMMAND]...  Print help for the subcommand(s)"]

def Page.text (p : Page) : String :=
  "\n".intercalate p.lines

end DeskCalculator.CommandLine
