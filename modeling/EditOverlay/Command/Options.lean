import EditOverlay.History
import EditOverlay.Text.Cut
import EditOverlay.Text.Numeral

/-! # Options of the command

Arguments are read from left to right. A long flag takes its value behind `=` or from the next
argument, a short one also attached. Only `--set` may be repeated. Whatever is not understood halts
the reading (`Halt.usage`), and so does a request for the version or for help, when it is met. -/

namespace EditOverlay.Command

/-- What the command is asked to do. -/
structure Options where
  input : String
  width : Nat
  undoLimit : Nat
  /-- The edits, in the order in which they are made. -/
  sets : List String
  /-- How many edits are taken back. -/
  undo : Nat
  dump : Option String
  commit : Bool
  backup : Bool
  json : Bool
  quiet : Bool
  deriving DecidableEq, Repr

/-- Why no options come out. -/
inductive Halt where
  | usage
  | version
  | help
  deriving DecidableEq, Repr

/-- The flags that take a value. -/
inductive ValueFlag where
  | input
  | width
  | undoLimit
  | set
  | undo
  | dump
  deriving DecidableEq, Repr

/-- The flags that stand for themselves. -/
inductive Switch where
  | commit
  | backup
  | json
  | quiet
  deriving DecidableEq, Repr

/-- What an argument is, seen alone. -/
inductive Argument where
  /-- A flag with the value attached to it, if there is one. -/
  | valueFlag (flag : ValueFlag) (value : Option String)
  | switch (switch : Switch)
  /-- A request that ends the reading. -/
  | halt (reason : Halt)
  /-- The mark behind which there are no flags. -/
  | endOfFlags
  /-- Neither a flag nor the mark: at best a value of the flag before it. -/
  | word
  deriving DecidableEq, Repr

/-- The flag with a long name and a value. -/
def ValueFlag.ofLong? (name : String) : Option ValueFlag :=
  [("input", ValueFlag.input), ("width", .width), ("stack-limit", .undoLimit), ("set", .set),
    ("undo", .undo), ("dump", .dump)].lookup name

/-- The flag with a short name and a value. -/
def ValueFlag.ofShort? : Char → Option ValueFlag
  | 'i' => some .input
  | 'w' => some .width
  | 's' => some .set
  | _ => none

/-- The flag with a long name and no value. -/
def Switch.ofLong? (name : String) : Option Switch :=
  [("commit", Switch.commit), ("backup", .backup), ("json", .json), ("quiet", .quiet)].lookup name

namespace Argument

/-- A long flag without its dashes. -/
def ofLong (body : List Char) : Argument :=
  let (name, value) := match Text.cut? '=' body with
    | some (name, value) => (String.ofList name, some (String.ofList value))
    | none => (String.ofList body, none)
  match ValueFlag.ofLong? name, Switch.ofLong? name, value with
  | some flag, _, value => .valueFlag flag value
  | none, some sw, none => .switch sw
  | none, none, none =>
    if name = "version" then .halt .version else if name = "help" then .halt .help else .halt .usage
  | none, _, some _ => .halt .usage

/-- A short flag without its dash. -/
def ofShort (c : Char) (body : List Char) : Argument :=
  match ValueFlag.ofShort? c, body with
  | some flag, [] => .valueFlag flag none
  | some flag, '=' :: value => .valueFlag flag (some (String.ofList value))
  | some flag, value => .valueFlag flag (some (String.ofList value))
  | none, _ => if c = 'V' then .halt .version else if c = 'h' then .halt .help else .halt .usage

/-- Tells what an argument is. A single dash is a word. -/
def ofString (s : String) : Argument :=
  match s.toList with
  | ['-', '-'] => .endOfFlags
  | '-' :: '-' :: body => ofLong body
  | '-' :: c :: body => ofShort c body
  | _ => .word

end Argument

/-- The first number that has more than thirty-two bits. -/
def bitsLimit : Nat := 0x100000000

/-- The number of bits in a text: a signed decimal numeral with a value below `bitsLimit`. -/
def readBits (text : String) : Except Halt Nat :=
  match text.toList with
  | '-' :: digits => if !digits.isEmpty && digits.all (· = '0') then .ok 0 else .error .usage
  | digits =>
    match Numeral.read 10 digits with
    | .ok n => if n < bitsLimit then .ok n else .error .usage
    | .error _ => .error .usage

/-- The count in a text: a decimal numeral. -/
def readCount (text : String) : Except Halt Nat :=
  (Numeral.read 10 text.toList).mapError fun _ => .usage

/-- The options met so far. -/
structure Draft where
  input : Option String
  width : Option Nat
  undoLimit : Option Nat
  sets : List String
  undo : Option Nat
  dump : Option String
  switches : List Switch
  deriving DecidableEq, Repr

namespace Draft

/-- The draft before the first argument. -/
def blank : Draft := ⟨none, none, none, [], none, none, []⟩

/-- Fills a place that takes one value. -/
def once {α : Type} (place : Option α) (value : α) : Except Halt (Option α) :=
  match place with
  | none => .ok (some value)
  | some _ => .error .usage

/-- Takes a flag with its value in. The input has to be named. -/
def add (d : Draft) (flag : ValueFlag) (value : String) : Except Halt Draft :=
  match flag with
  | .input => do
    if value = "" then throw .usage
    return { d with input := ← once d.input value }
  | .width => do return { d with width := ← once d.width (← readBits value) }
  | .undoLimit => do return { d with undoLimit := ← once d.undoLimit (← readCount value) }
  | .set => return { d with sets := d.sets ++ [value] }
  | .undo => do return { d with undo := ← once d.undo (← readCount value) }
  | .dump => do return { d with dump := ← once d.dump value }

/-- Takes a switch in. -/
def addSwitch (d : Draft) (sw : Switch) : Except Halt Draft :=
  if sw ∈ d.switches then .error .usage else .ok { d with switches := sw :: d.switches }

/-- The options of a finished draft. -/
def finish (d : Draft) : Except Halt Options :=
  match d.input with
  | none => .error .usage
  | some input => .ok {
      input := input
      width := d.width.getD 8
      undoLimit := d.undoLimit.getD History.defaultLimit
      sets := d.sets
      undo := d.undo.getD 0
      dump := d.dump
      commit := decide (Switch.commit ∈ d.switches)
      backup := decide (Switch.backup ∈ d.switches)
      json := decide (Switch.json ∈ d.switches)
      quiet := decide (Switch.quiet ∈ d.switches) }

/-- Takes all arguments in. A value may be the next argument only if that is a word. -/
def addAll (d : Draft) : List String → Except Halt Draft
  | [] => .ok d
  | [arg] =>
    match Argument.ofString arg with
    | .valueFlag flag (some value) => d.add flag value
    | .valueFlag _ none => .error .usage
    | .switch sw => d.addSwitch sw
    | .halt reason => .error reason
    | .endOfFlags => .ok d
    | .word => .error .usage
  | arg :: next :: rest =>
    match Argument.ofString arg with
    | .valueFlag flag (some value) => do (← d.add flag value).addAll (next :: rest)
    | .valueFlag flag none =>
      if Argument.ofString next = .word then do (← d.add flag next).addAll rest
      else .error .usage
    | .switch sw => do (← d.addSwitch sw).addAll (next :: rest)
    | .halt reason => .error reason
    | .endOfFlags => .error .usage
    | .word => .error .usage

end Draft

/-- Reads the arguments of the command. -/
def Options.ofArguments (args : List String) : Except Halt Options := do
  (← Draft.blank.addAll args).finish

end EditOverlay.Command
