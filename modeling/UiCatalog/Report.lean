import UiCatalog.Json
import UiCatalog.Resolution
/-!
# The report

The report of a load says how many entities there are and lists the diagnostics. What a diagnostic
does not have is left out, and positions count from one.
-/

namespace UiCatalog.Report

def ofOrigin (o : Origin) : Json :=
  .object [("source", .number o.source), ("line", .number (o.span.start.line + 1)),
    ("column", .number (o.span.start.column + 1))]

def ofDiagnostic (d : Diagnostic) : Json :=
  let related := match d.related with
    | [] => []
    | names => [("related", Json.array (names.map .text))]
  .object <|
    [("kind", .text d.category.name), ("severity", .text d.severity.text), ("code", .text d.code),
      ("subject", .text d.subject)] ++
    (d.field.map fun field => ("field", Json.text field)).toList ++
    [("message", .text d.message)] ++ related ++
    (d.origin.map fun origin => ("origin", ofOrigin origin)).toList

def ofLoaded (l : Loaded) : Json :=
  .object [("entities", .number l.catalog.size),
    ("errors", .number (Diagnostic.count .error l.diagnostics)),
    ("warnings", .number (Diagnostic.count .warning l.diagnostics)),
    ("diagnostics", .array (l.diagnostics.map ofDiagnostic))]

def text (l : Loaded) : String :=
  (ofLoaded l).render

end UiCatalog.Report
