import RegisterCompiler.Target.Descriptor
import RegisterCompiler.Yaml.Node
import RegisterCompiler.Yaml.Number

/-!
# Descriptors as documents

A description of a machine can be written as a YAML document. What the document leaves out is as in the
built-in description; a field that no description has is an error.
-/

namespace RegisterCompiler.Config

open Yaml (Node)

/-- A text, `previous` if the value is absent. -/
def text? (previous : String) : Node → Option String
  | .scalar plain text => if (Node.scalar plain text).isNull then some previous else some text
  | _ => none

/-- A number, `previous` if the value is absent. -/
def number? (previous : Int64) : Node → Option Int64
  | .scalar true text => if (Node.scalar true text).isNull then some previous else Yaml.word? text
  | _ => none

/-- Texts; absent items are left out. -/
def texts? : Node → Option (List String)
  | .sequence items => (items.filter (!·.isNull)).mapM (text? "")
  | node => if node.isNull then some [] else none

/-- The entries of a mapping by their keys, which differ. An entry with an absent key does not count. -/
def fields? : Node → Option (List (String × Node))
  | .mapping entries => do
    let keys ← entries.mapM fun (key, _) =>
      match key with
      | .scalar _ text => some text
      | _ => none
    if ¬ keys.Nodup then none
    (entries.filter (!·.1.isNull)).mapM fun (key, value) => do return (← text? "" key, value)
  | node => if node.isNull then some [] else none

/-- Reads the fields of a mapping one by one into a description. -/
def readFields (set : Config → String → Node → Option Config) (c : Config) (node : Node) : Option Config := do
  (← fields? node).foldlM (fun c (key, value) => set c key value) c

def setRegisters (c : Config) (key : String) (value : Node) : Option Config :=
  match key with
  | "allocatable" => (texts? value).map fun v => { c with allocatable := v }
  | "return" => (text? c.result value).map fun v => { c with result := v }
  | "scratch" => (texts? value).map fun v => { c with scratch := v }
  | "callee_saved" => (texts? value).map fun v => { c with calleeSaved := v }
  | _ => none

def setConvention (c : Config) (key : String) (value : Node) : Option Config :=
  match key with
  | "args" => (texts? value).map fun v => { c with args := v }
  | "stack_arg_size" => (number? c.stackArgSize value).map fun v => { c with stackArgSize := v }
  | _ => none

def setStack (c : Config) (key : String) (value : Node) : Option Config :=
  match key with
  | "align" => (number? c.stackAlign value).map fun v => { c with stackAlign := v }
  | "slot_align" => (number? c.slotAlign value).map fun v => { c with slotAlign := v }
  | "max_frame" => (number? c.maxFrame value).map fun v => { c with maxFrame := v }
  | "grows" => (text? c.grows value).map fun v => { c with grows := v }
  | _ => none

def setWidth (c : Config) (key : String) (value : Node) : Option Config :=
  (texts? value).map fun v => { c with widths := c.widths ++ [(key, v)] }

def setField (c : Config) (key : String) (value : Node) : Option Config :=
  match key with
  | "name" => (text? c.name value).map fun v => { c with name := v }
  | "registers" => readFields setRegisters c value
  | "calling_convention" => readFields setConvention c value
  | "stack" => readFields setStack c value
  | "widths" => readFields setWidth c value
  | _ => none

/-- The machine that a document describes. -/
def ofDocument (source : String) : Except ConfigError Descriptor :=
  match Yaml.readDocument source with
  | .empty => Config.descriptor {}
  | .malformed => .error .document
  | .value node =>
    match readFields setField {} node with
    | some c => c.descriptor
    | none => .error .document

end RegisterCompiler.Config
