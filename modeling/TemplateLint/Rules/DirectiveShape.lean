import TemplateLint.Rule

/-!
# Directives are well formed

One rule looks at the separators of a directive's names, one at whether it names anything.
-/

namespace TemplateLint.Rules

open Text

namespace MalformedDirective

def descriptor : Descriptor where
  name := "herb-disable-comment-malformed"
  description := "Reports malformed herb:disable comments"

def noBlankMessage : String :=
  "`herb:disable` must be followed by a space and a comma-separated list of rule names."

def blankEntryMessage : String :=
  "herb:disable comment contains an empty rule name. Remove the extra comma."

def noCommaMessage (name : String) : String :=
  let separated := ", ".intercalate ((words name.toList).map String.ofList)
  s!"Rule names must be separated by commas: `{separated}`."

def check (d : Directive) : List Offense :=
  if !d.matched then [descriptor.offense noBlankMessage d.location]
  else
    let blank :=
      if d.hasBlankEntry then [descriptor.offense blankEntryMessage d.contentLocation] else []
    let joined := d.entries.filter fun e => e.name.toList.any isBlank
    blank ++ joined.map fun e => descriptor.offense (noCommaMessage e.name) e.location

end MalformedDirective

namespace EmptyDirective

def descriptor : Descriptor where
  name := "herb-disable-comment-missing-rules"
  description := "Requires herb:disable comments to name rules"

def message : String :=
  "herb:disable comment is missing rule names. Use `herb:disable all` or list the rules to disable."

def check (d : Directive) : List Offense :=
  if d.matched && d.entries.isEmpty then [descriptor.offense message d.location] else []

end EmptyDirective

def malformedDirective : Rule :=
  .directive (.plain MalformedDirective.descriptor fun d _ => MalformedDirective.check d)

def emptyDirective : Rule :=
  .directive (.plain EmptyDirective.descriptor fun d _ => EmptyDirective.check d)

end TemplateLint.Rules
