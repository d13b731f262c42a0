import RosAudit.Audit.Brief
import RosAudit.CommandLine.Session
import RosAudit.Event

/-!
# Scenarios

Runs of several parts of the program together, on a project of a given size. `exportedNames` writes
every export of a project into one folder; `lateEvaluation` resolves an expression that launch files
may hold but that is never computed; `homeRounds` sets a home folder up again and again;
`listenAndLeave` counts the calls of an event.
-/

namespace RosAudit.Scenario

/-! ## Exports -/

def package (name : String) : Value :=
  .object [("name", .text name), ("lines", .int 1), ("sloc", .int 1),
    ("files", .list [.object [("name", .text "node.cpp"), ("lines", .int 1), ("sloc", .int 1)]])]

def world (n : Nat) : Value :=
  .object [("project", .text "proj"),
    ("packages", .list ((List.range n).map fun i => package ("ep" ++ toString i))),
    ("model", .list [.object [("do", .text "config"), ("name", .text "cfg0")]])]

def exportedNames (folder : String) (n : Nat) : Result (List String) := do
  let (done, scene) := (Scene.describe "/ws" (world n)).exec {}
  let _ ← done
  let b ← Brief.ofValue scene (.object [])
  let (done, report) := (Report.summarise b.database.model).exec b.report
  let _ ← done
  let b := { b with report }
  let t ← FileTree.ensureFolders {} folder
  let t ← Brief.exportNames.foldlM (fun t name => do
    let (done, t) := ((b.exportOf t folder (.object []) name).write folder).exec t
    let _ ← done
    pure t) t
  return t.names folder

/-! ## Substitutions -/

def lateEvaluation : Result Value := do
  let resolve : Job SubstContext Value := do
    let v ← SubstContext.substitute "$(eval 1+1)" .text
    let _ ← SubstContext.resolveLate v .text false
    pure .null
  (resolve.exec {}).1

/-! ## Home folders -/

def homeRound (home : String) : Job FileTree Value := do
  match Session.homeLayout with
  | .record es =>
    FileTree.layOut true home es
    FileTree.layOut false home es
  | _ => pure ()
  Viewer.install Viewer.contents (Path.join home "viz") true
  match Viewer.hostOf "badhost" with
  | .ok (name, _) => pure (.text name)
  | .error f => pure (.text? f.message?)

def homeRounds (home : String) : Nat → Job FileTree (List Value)
  | 0 => pure []
  | n + 1 => do
    let v ← homeRound home
    return v :: (← homeRounds home n)

/-! ## Events -/

def listenAndLeave (n : Nat) : Result Nat := do
  let e := (List.range n).foldl (fun e _ => e.subscribe "listener") ({} : Event String)
  let e' ← e.unsubscribe "listener"
  return (e.calls ()).length + (e'.calls ()).length

/-! ## Runs -/

def run? (folder name : String) (n : Nat) : Option (Job FileTree Value) :=
  match name with
  | "export_manager" => some (Job.ofResult (return .texts (← exportedNames folder n)))
  | "launch_parser" => some (Job.ofResult lateEvaluation)
  | "haros_cli" => some (return .list (← homeRounds (Path.join folder "haros_home") n))
  | "plugin_and_util" => some (Job.ofResult (return .list [.nat (← listenAndLeave n)]))
  | _ => none

end RosAudit.Scenario
