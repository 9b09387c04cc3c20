import DiffAnalyzer.CommandLine.Invocation

/-!
# Help

The program and each of its commands explain themselves: what they are for, how they
are called, and one entry for every command, argument and option.  A summary keeps an
entry on one line, beside its label; a full text puts it below its label and says more.
-/

namespace DiffAnalyzer

namespace CommandLine

def versionText : String := "ddac 0.1.0\n"

/-- A label and what it stands for. -/
structure HelpEntry where
  label : String
  about : String
  fallback : Option String := none
  choices : List (String × String) := []

namespace HelpEntry

def padded (width : Nat) (text : String) : String :=
  text ++ String.ofList (List.replicate (width - text.length) ' ')

/-- The width of the widest of some texts. -/
def widest (texts : List String) : Nat := (texts.map String.length).foldl max 0

def fallbackNote (e : HelpEntry) : List String :=
  e.fallback.toList.map fun value => s!"[default: {value}]"

def choicesNote (e : HelpEntry) : List String :=
  if e.choices.isEmpty then []
  else ["[possible values: " ++ ", ".intercalate (e.choices.map Prod.fst) ++ "]"]

def summary (width : Nat) (e : HelpEntry) : String :=
  "  " ++ padded width e.label ++ "  " ++
    " ".intercalate (e.about :: e.fallbackNote ++ e.choicesNote) ++ "\n"

/-- Where the lines below a label start. -/
def margin : String := "          "

/-- What each value means, below a blank line. -/
def choiceLines (e : HelpEntry) : String :=
  let width := widest (e.choices.map Prod.fst)
  if e.choices.isEmpty then ""
  else
    "\n\n" ++ margin ++ "Possible values:" ++
      "".intercalate (e.choices.map fun (name, meaning) =>
        "\n" ++ margin ++ "- " ++ padded (width + 2) (name ++ ":") ++ meaning)

/-- The value that is assumed, below a line of blanks. -/
def fallbackLines (e : HelpEntry) : String :=
  "".intercalate (e.fallbackNote.map fun note => "\n" ++ margin ++ "\n" ++ margin ++ note)

def full (e : HelpEntry) : String :=
  "  " ++ e.label ++ "\n" ++ margin ++ e.about ++ e.choiceLines ++ e.fallbackLines ++ "\n"

/-- The entries under a title; nothing if there are none. -/
def group (full : Bool) (title : String) (entries : List HelpEntry) : List String :=
  if entries.isEmpty then []
  else
    let width := widest (entries.map label)
    let lines :=
      if full then "\n".intercalate (entries.map HelpEntry.full)
      else "".intercalate (entries.map (summary width))
    [title ++ ":\n" ++ lines]

end HelpEntry

def OptionSpec.helpEntry (o : OptionSpec) : HelpEntry where
  label :=
    (match o.short with
      | some letter => "-" ++ letter.toString ++ ", "
      | none => "    ") ++
    "--" ++ o.name ++
    (match o.value with
      | some value => " <" ++ value ++ ">"
      | none => "")
  about := o.about
  fallback := o.fallback
  choices := o.choices

/-- The options of a command as they are listed: those of all commands come behind the
first of its own. -/
def CommandSpec.listed (c : CommandSpec) : List OptionSpec :=
  c.options.take 1 ++ commonSpecs ++ c.options.drop 1

/-- Whether a command has more to say than fits in a summary. -/
def CommandSpec.hasDetails (c : CommandSpec) : Bool :=
  c.details.isSome || c.options.any fun o => !o.choices.isEmpty

/-- The help of a command. -/
def CommandSpec.help (c : CommandSpec) (full : Bool) : String :=
  let full := full && c.hasDetails
  let hint :=
    if !c.hasDetails then "" else if full then " (see a summary with '-h')"
    else " (see more with '--help')"
  let own : HelpEntry := ⟨"-h, --help", "Print help" ++ hint, none, []⟩
  "\n".intercalate <|
    [c.about ++ "\n"] ++
    (if full then c.details.toList.map (· ++ "\n") else []) ++
    ["Usage: ddac " ++ c.name ++ " [OPTIONS] --file <FILE>" ++
      (match c.trailing with
        | some (name, _) => " [-- <" ++ name ++ ">...]\n"
        | none => "\n")] ++
    HelpEntry.group full "Arguments"
      (c.trailing.toList.map fun (name, about) => ⟨"[" ++ name ++ "]...", about, none, []⟩) ++
    HelpEntry.group full "Options" (c.listed.map OptionSpec.helpEntry ++ [own])

def helpAbout : String := "Print this message or the help of the given subcommand(s)"

/-- The help of the program. -/
def programHelp : String :=
  "\n".intercalate <|
    ["Compiler for DDA analog-computer circuit descriptions.\n",
      "Usage: ddac [OPTIONS] <COMMAND>\n"] ++
    HelpEntry.group false "Commands"
      (commandSpecs.map (fun c => ⟨c.name, c.about, none, []⟩) ++
        [⟨"help", helpAbout, none, []⟩]) ++
    HelpEntry.group false "Options"
      (commonSpecs.map OptionSpec.helpEntry ++
        [⟨"-h, --help", "Print help", none, []⟩, ⟨"-V, --version", "Print version", none, []⟩])

/-- The help of asking for help. -/
def helpHelp : String :=
  "\n".intercalate <|
    [helpAbout ++ "\n", "Usage: ddac help [COMMAND]...\n"] ++
    HelpEntry.group false "Arguments"
      [⟨"[COMMAND]...", "Print help for the subcommand(s)", none, []⟩]

/-- The help on a topic. -/
def helpText (topic : Topic) (full : Bool) : String :=
  match topic with
  | .program => programHelp
  | .help => helpHelp
  | .command name => ((commandSpec? name).map fun c => c.help full).getD programHelp

end CommandLine

end DiffAnalyzer
