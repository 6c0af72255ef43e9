import TemplateLint.Command.Report
import TemplateLint.Rules.Catalog
import TemplateLint.Suppression

/-!
# The list of rules
-/

namespace TemplateLint.Command

/-- A text with blanks after it up to a width. -/
def padded (width : Nat) (text : String) : String :=
  text ++ String.ofList (List.replicate (width - text.length) ' ')

def columns (name severity fix description : String) : String :=
  " ".intercalate [padded 42 name, padded 9 severity, padded 8 fix, description]

def ruleRow (d : Descriptor) : String :=
  let name := if d.enabledByDefault then d.name else d.name ++ " (off)"
  columns name d.severity.name (d.safety?.elim "-" (·.name)) d.description

def ruleList : String :=
  let descriptors := Rules.Preset.recommended.rules.map (·.descriptor) ++ [unnecessaryDescriptor]
  lines (["Available rules:",
    "",
    columns "Name" "Severity" "Autofix" "Description",
    String.ofList (List.replicate 100 '-')] ++
    descriptors.map ruleRow ++
    ["",
    "Use --rules to filter specific rules, e.g.:",
    "  herb-lint check --rules html-tag-name-lowercase,html-no-duplicate-ids",
    "",
    "Silence a line with an ERB comment:",
    "  <%# herb:disable html-no-duplicate-ids %>"])

end TemplateLint.Command
