import RosAudit.Number

/-!
# Statistics

The counters of an audit. They are data, since a comparison with the past turns counts into
differences from a mean, and a metric may have any value. `Statistics.columns` lists the counters
by name, and the four ratios derive from them.
-/

namespace RosAudit

structure Statistics where
  files : Value := .int 0
  scripts : Value := .int 0
  launches : Value := .int 0
  paramFiles : Value := .int 0
  issues : Value := .int 0
  standardIssues : Value := .int 0
  metricsIssues : Value := .int 0
  otherIssues : Value := .int 0
  configurations : Value := .int 0
  nodes : Value := .int 0
  nodelets : Value := .int 0
  messageTypes : Value := .int 0
  serviceTypes : Value := .int 0
  actionTypes : Value := .int 0
  lines : Value := .int 0
  commentLines : Value := .int 0
  cppLines : Value := .int 0
  pythonLines : Value := .int 0
  complexity : Value := .int 1
  functionLength : Value := .int 0
  fileLength : Value := .int 0

namespace Statistics

/-- A counter: its name, how to read it and how to set it. -/
structure Column where
  name : String
  get : Statistics → Value
  set : Value → Statistics → Statistics

def columns : List Column :=
  [⟨"file_count", files, fun v s => { s with files := v }⟩,
   ⟨"script_count", scripts, fun v s => { s with scripts := v }⟩,
   ⟨"launch_count", launches, fun v s => { s with launches := v }⟩,
   ⟨"param_file_count", paramFiles, fun v s => { s with paramFiles := v }⟩,
   ⟨"issue_count", issues, fun v s => { s with issues := v }⟩,
   ⟨"standard_issue_count", standardIssues, fun v s => { s with standardIssues := v }⟩,
   ⟨"metrics_issue_count", metricsIssues, fun v s => { s with metricsIssues := v }⟩,
   ⟨"other_issue_count", otherIssues, fun v s => { s with otherIssues := v }⟩,
   ⟨"configuration_count", configurations, fun v s => { s with configurations := v }⟩,
   ⟨"node_count", nodes, fun v s => { s with nodes := v }⟩,
   ⟨"nodelet_count", nodelets, fun v s => { s with nodelets := v }⟩,
   ⟨"message_type_count", messageTypes, fun v s => { s with messageTypes := v }⟩,
   ⟨"service_type_count", serviceTypes, fun v s => { s with serviceTypes := v }⟩,
   ⟨"action_type_count", actionTypes, fun v s => { s with actionTypes := v }⟩,
   ⟨"lines_of_code", lines, fun v s => { s with lines := v }⟩,
   ⟨"comment_lines", commentLines, fun v s => { s with commentLines := v }⟩,
   ⟨"cpp_lines", cppLines, fun v s => { s with cppLines := v }⟩,
   ⟨"python_lines", pythonLines, fun v s => { s with pythonLines := v }⟩,
   ⟨"avg_complexity", complexity, fun v s => { s with complexity := v }⟩,
   ⟨"avg_function_length", functionLength, fun v s => { s with functionLength := v }⟩,
   ⟨"avg_file_length", fileLength, fun v s => { s with fileLength := v }⟩]

def ratio (a b : Value) : Result Value := do
  Number.div a (.float (← Number.toDouble b))

def commentRatio (s : Statistics) : Result Value := do
  ratio s.commentLines (← Number.add s.cppLines s.pythonLines)

def cppRatio (s : Statistics) : Result Value := ratio s.cppLines s.lines

def pythonRatio (s : Statistics) : Result Value := ratio s.pythonLines s.lines

def issueRatio (s : Statistics) : Result Value := ratio s.issues s.lines

/-- Replaces counters one after another by their differences from the mean of earlier ones. -/
def relativeFrom (current : Statistics) (previous : List Statistics) :
    List Column → Job Statistics Unit
  | [] => pure ()
  | c :: cs => do
    let mean ← Job.ofResult (Number.mean (previous.map c.get))
    let v ← Job.ofResult (Number.sub (c.get current) mean)
    modify (c.set v)
    relativeFrom current previous cs

def relative (current : Statistics) (previous : List Statistics) : Job Statistics Unit :=
  relativeFrom current previous columns

def ofValue (v : Value) : Statistics :=
  columns.foldl (fun s c =>
    match v.field? c.name with
    | some x => c.set x s
    | none => s) {}

def toValue (tried : Result Value → Value) (s : Statistics) : Value :=
  .object (columns.map (fun c => (c.name, c.get s)) ++
    [("comment_ratio", tried s.commentRatio), ("cpp_ratio", tried s.cppRatio),
     ("python_ratio", tried s.pythonRatio), ("issue_ratio", tried s.issueRatio)])

end Statistics

end RosAudit
