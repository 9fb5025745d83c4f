import AdaptiveTree.Engine
import AdaptiveTree.Report.Snippet

/-!
Reports: errors and warnings with the part of the source that they are about. An error that
is about no place in a source is one plain line.
-/

set_option autoImplicit false
set_option relaxedAutoImplicit false

namespace AdaptiveTree.Report

def kindName : Severity → String
  | .error => "Error"
  | .warning => "Warning"
  | .info => "Advice"

/-- The code in brackets, of at least two columns, and a blank. -/
def codeText : Option String → String
  | none => ""
  | some code => "[" ++ code ++ blanks (2 - code.length) ++ "] "

def heading (d : Diagnostic) : Row :=
  tinted (.kind d.severity) (codeText d.code ++ kindName d.severity ++ ":") ++
    bare (" " ++ d.message)

/-- The rows of a report. A span that the source has no lines for is not shown. -/
def diagnosticRows (source : String) (d : Diagnostic) : List Row :=
  heading d ::
    match Snippet.of? source d.span d.message with
    | some s => s.rows d.help
    | none => []

def renderDiagnostics (colour : Bool) (source : String) (ds : List Diagnostic) : String :=
  renderRows colour (ds.flatMap (diagnosticRows source))

def renderError (colour : Bool) (source : String) : EngineError → String
  | .compilation ds => renderDiagnostics colour source ds
  | .runtime d => renderDiagnostics colour source [d]
  | .resourceExceeded text => "Resource limit exceeded: " ++ text ++ "\n"
  | .api text => "API error: " ++ text ++ "\n"

end AdaptiveTree.Report
