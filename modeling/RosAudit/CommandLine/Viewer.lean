import RosAudit.FileTree

/-!
# The viewer

The outcome of audits can be looked at with a viewer, a set of files that is copied into a folder
and served from there.
-/

namespace RosAudit.Viewer

def contents : List String :=
  ["css/", "css/color.css", "css/style.css", "css/type.css", "index.html", "js/", "js/app.js",
   "js/models.js", "js/routes.js", "js/views/", "js/views/dashboard.js", "js/views/general.js",
   "js/views/help.js", "js/views/issues.js", "js/views/packages.js", "js/views/ros.js", "lib/",
   "lib/css/", "lib/css/font-awesome.css", "lib/css/font-awesome.min.css",
   "lib/css/grids-responsive-min.css", "lib/css/pure-min.css", "lib/fonts/",
   "lib/fonts/FontAwesome.otf", "lib/fonts/fontawesome-webfont.eot",
   "lib/fonts/fontawesome-webfont.svg", "lib/fonts/fontawesome-webfont.ttf",
   "lib/fonts/fontawesome-webfont.woff", "lib/fonts/fontawesome-webfont.woff2", "lib/js/",
   "lib/js/backbone.min.js", "lib/js/d3.min.js", "lib/js/dagre.min.js",
   "lib/js/jquery-2.2.1.min.js", "lib/js/underscore.min.js"]

def copy (target : String) (t : FileTree) (path : String) : Result FileTree :=
  let full := Path.join target path
  if path.toList.getLast? == some '/' then
    if t.isFolder full then pure t else t.makeFolder full
  else t.write full ""

def install (contents : List String) (target : String) (force : Bool) : Job FileTree Unit := do
  let t ← get
  if force && t.present target then set (← Job.ofResult (t.removeFolder target))
  let t ← get
  if !t.present target then set (← Job.ofResult (t.makeFolder target))
  let t ← Job.ofResult (contents.foldlM (copy target) (← get))
  set t
  let data := Path.join target "data"
  if !t.present data then set (← Job.ofResult (t.makeFolder data))

def hostOf (host : String) : Result (String × String) :=
  match Text.splitOnChar ':' host with
  | [name, port] => pure (name, port)
  | _ => throw (.stopped ("Invalid host:port provided: " ++ host))

def address (t : FileTree) (folder host : String) : Result (Option (String × Int)) := do
  let (name, port) ← hostOf host
  let _ ← t.enter folder
  pure ((Decimal.readInt? port).map fun n => (name, n))

end RosAudit.Viewer
