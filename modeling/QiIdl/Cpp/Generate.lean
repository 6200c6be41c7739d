import QiIdl.Cpp.File

/-!
# Making output with reports

Output that reports on the way: what was reported before an error stays reported.
-/

namespace QiIdl

/-- Output in the making, with the reports made so far. -/
abbrev Generate := EStateM GenError (List Diagnostic)

namespace Generate

/-- Output that can fail and reports nothing. -/
def ofExcept {β : Type} : Except GenError β → Generate β
  | .ok b => pure b
  | .error e => throw e

/-- Output that reports and cannot fail. -/
def ofReporting {β : Type} (p : Reporting β) : Generate β := fun ds =>
  let (b, ds) := p.run ds
  .ok b ds

def warn (location : Location) (message : String) : Generate Unit :=
  ofReporting (report (.plain .warning location message))

end Generate
end QiIdl
