import EditOverlay.Command.Options
import EditOverlay.Command.Spec
import EditOverlay.Directory
import EditOverlay.Dump
import EditOverlay.Summary

/-! # Sessions of the command

A session opens the input, makes the edits, takes some back, shows what is asked for and writes the
changes if told to. `Session.run` does this on what the input's path leads to and tells what is to
be written; `runIn` carries it out in a directory. Nothing is written unless all before it went
well.

What the command logs is left out: nothing that it shows or writes depends on it. -/

namespace EditOverlay.Command

/-- What comes of a session. -/
structure Outcome where
  exit : Nat
  stdout : String
  /-- The report on a failure, without the log. -/
  stderr : String
  /-- Whether the input is copied before it is written. -/
  backup : Bool
  /-- The new bytes of the input, if it is written. -/
  written : Option (List UInt8)
  deriving DecidableEq, Repr

namespace Outcome

/-- The end of a session that writes nothing. -/
def done (stdout : String) : Outcome := ⟨0, stdout, "", false, none⟩

/-- The end of a session that gives up, after some output. -/
def failed (stdout : String) (f : Failure) : Outcome := ⟨1, stdout, f.report, false, none⟩

end Outcome

/-- The version of the command. -/
def version : String := "0.1.0"

/-- The text printed for the version. -/
def versionText : String := "sparse_edit " ++ version ++ "\n"

/-- The form of the arguments. -/
def usageLine : String := "Usage: sparse_edit [OPTIONS] --input <INPUT>"

/-- The text printed for help. -/
def helpText : String :=
  String.join <| [
    "对文件进行稀疏的元素级修改，支持撤销和显式提交",
    "",
    usageLine,
    "",
    "Options:",
    "  -i, --input <INPUT>              输入文件路径",
    "  -w, --width <WIDTH>              元素位宽（8/16/32/64） [default: 8]",
    "      --stack-limit <STACK_LIMIT>  撤销栈上限 [default: 100]",
    "  -s, --set <POS=VALUES>           " ++
      "修改：POS=V1,V2,...（位置可用 0x 前缀，值为十六进制），可重复",
    "      --undo <UNDO>                应用修改后撤销的次数 [default: 0]",
    "      --dump <POS:LEN>             输出有效视图：POS:LEN",
    "      --commit                     将修改写入文件",
    "      --backup                     提交前创建备份",
    "      --json                       以JSON输出变更摘要",
    "      --quiet                      静默模式(仅输出错误)",
    "  -h, --help                       Print help",
    "  -V, --version                    Print version"].map (· ++ "\n")

/-- The text printed for arguments that are not understood, whatever is wrong with them. -/
def usageText : String :=
  "error: invalid arguments\n\n" ++ usageLine ++
    "\n\nFor more information, try \x27--help\x27.\n"

namespace Session

/-- Refuses options that cannot be followed whatever the input holds. -/
def checkOptions (o : Options) (input : Entry) : Except Failure Unit :=
  match input with
  | .absent _ => .error (.plain ("输入文件不存在: " ++ Text.quote o.input))
  | _ =>
    if o.backup && !o.commit then .error (.plain "--backup 需要与 --commit 一起使用") else .ok ()

/-- Opens the input, for writing only if the changes are to be written. -/
def openInput (o : Options) (input : Entry) : Except Failure (Editor FileStore) := do
  checkOptions o input
  let width ← (Width.ofBits o.width).mapError Failure.ofError
  let access := if o.commit then Access.readWrite else .readOnly
  let file ← (FileStore.ofEntry o.input width access input).mapError
    (.because ("无法打开文件: " ++ Text.quote o.input))
  return Editor.withLimit file o.undoLimit

/-- The report on an edit that was refused. -/
def editFailure (spec : String) (length : Nat) (e : EditError) : Failure :=
  if e.isContractViolation then
    let reason := e.message
    .plain s!"无效的修改 {spec} (数据块共 {length} 个元素): {reason}"
  else .because ("修改失败: " ++ spec) e

/-- Makes one edit. -/
def edit (e : Editor FileStore) (spec : String) : Except Failure (Editor FileStore) := do
  let (pos, values) ← (readEdit spec.toList).mapError SpecDefect.failure
  (e.change pos values).mapError (editFailure spec e.store.length)

/-- Opens the input, makes the edits and takes some back. -/
def prepare (o : Options) (input : Entry) : Except Failure (Editor FileStore) := do
  let opened ← openInput o input
  let edited ← o.sets.foldlM edit opened
  return edited.undoMany o.undo

/-- The dump that is asked for. -/
def dumpText (o : Options) (e : Editor FileStore) : Except Failure String :=
  match o.dump with
  | none => .ok ""
  | some spec => do
    let (pos, count) ← (readWindow spec.toList).mapError SpecDefect.failure
    (Dump.view e pos count).mapError Failure.ofError

/-- The summary that is asked for. -/
def summaryText (o : Options) (e : Editor FileStore) : String :=
  if o.json then e.overlay.summary.toJson ++ "\n"
  else if o.quiet then ""
  else e.describe ++ "\n" ++ Dump.runs e

/-- A line that is left out of a quiet session. -/
def note (o : Options) (text : String) : String := if o.quiet then "" else text ++ "\n"

/-- The report on a commit. -/
def reportText (r : SaveReport) : String :=
  let runs := r.runs
  let elements := r.elements
  s!"已提交 {runs} 个区段，共 {elements} 个元素"

/-- Refuses a backup that is asked for and cannot be made. -/
def checkBackup (o : Options) (copying : Except EditError Unit) : Except EditError Unit :=
  if o.backup then copying else .ok ()

/-- Writes the changes, after some output. Before that the input is copied, if that is asked for. -/
def commit (o : Options) (e : Editor FileStore) (copying : Except EditError Unit)
    (stdout : String) : Outcome :=
  if !e.overlay.hasChanges then .done (stdout ++ note o "没有需要提交的修改")
  else
    match checkBackup o copying with
    | .error err => .failed stdout (.ofError err)
    | .ok () =>
      let (saved, result) := e.save
      let report := match result with
        | .ok r => Outcome.done (stdout ++ note o (reportText r))
        | .error err => .failed stdout (.because ("写入文件失败: " ++ Text.quote o.input) err)
      { report with backup := o.backup, written := some saved.store.bytes }

/-- The session with the given options on what the input's path leads to. A copy of the input, if it
is made, fails or not as given. -/
def run (o : Options) (input : Entry) (copying : Except EditError Unit) : Outcome :=
  match prepare o input with
  | .error f => .failed "" f
  | .ok e =>
    match dumpText o e with
    | .error f => .failed "" f
    | .ok dump =>
      let stdout := dump ++ summaryText o e
      if o.commit then commit o e copying stdout
      else if e.overlay.hasChanges then .done (stdout ++ note o "未指定 --commit，修改未写入文件")
      else .done stdout

end Session

/-- What comes of arguments that are no options. -/
def Halt.outcome : Halt → Outcome
  | .usage => ⟨2, "", usageText, false, none⟩
  | .version => .done versionText
  | .help => .done helpText

/-- Carries out what a session writes to its input. -/
def Outcome.applyTo (outcome : Outcome) (time : Timestamp) (path : String) (d : Directory) :
    Directory :=
  match d.find? path, outcome.written with
  | some (place, _), some bytes =>
    let kept := match outcome.backup, d.backUp time path with
      | true, .ok (_, copied) => copied
      | _, _ => d
    kept.put place bytes
  | _, _ => d

/-- Runs the command in a directory. -/
def runIn (time : Timestamp) (d : Directory) (args : List String) : Outcome × Directory :=
  match Options.ofArguments args with
  | .error halt => (halt.outcome, d)
  | .ok o =>
    let copying := (d.backUp time o.input).map fun _ => ()
    let outcome := Session.run o (d.entry o.input) copying
    (outcome, outcome.applyTo time o.input d)

end EditOverlay.Command
