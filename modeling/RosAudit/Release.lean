import RosAudit.Value

/-!
# Release information

What a release of the program says about itself, by the options that ask for it.
-/

namespace RosAudit

namespace Release

def facts : List (String × String) :=
  let name := "haros"
  let version := "3.6.0"
  let author := "Andre Santos"
  let email := "andre.f.santos@inesctec.pt"
  [("--name", name), ("--version", version), ("--fullname", name ++ "-" ++ version),
   ("--author", author), ("--author-email", email), ("--contact", author),
   ("--contact-email", email), ("--description", "Static analysis framework for ROS."),
   ("--license", "MIT"), ("--keywords", "static-analysis ros"),
   ("--url", "https://github.com/git-afsantos/haros")]

def lines (options : List String) : Option String :=
  if options.isEmpty then none
  else some (String.join (options.filterMap fun o => (facts.lookup o).map (· ++ "\n")))

end Release

end RosAudit
