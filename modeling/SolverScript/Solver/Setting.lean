import SolverScript.Failure

/-!
# Solver settings

Options, pieces of information and logics that a user asks for, and the lines that set them. The
logic is special: it is set at one place of a script only, and a reserved name asks for no logic at
all.

## Main definitions

* `Logic` - the name of a logic
* `Setting` - a setting, with `Setting.render` and `Setting.logic?`
-/

namespace SolverScript

/-- A logic, by its name. -/
structure Logic where
  name : String
  deriving DecidableEq, Repr

namespace Logic

/-- The logic that contains all theories. -/
def everything : Logic := ⟨"ALL"⟩

/-- The request to set no logic. -/
def unset : Logic := ⟨"NONE"⟩

/-- Whether no logic is to be set. -/
def isUnset (l : Logic) : Bool := l.name == "NONE"

/-- A logic by its name, which must not be empty. -/
def check (name : String) : Except Failure Logic :=
  if name.isEmpty then .error .emptyLogicName else .ok ⟨name⟩

/-- The logic in words. -/
def describe (l : Logic) : String := if l.isUnset then "Logic_NONE" else l.name

end Logic

/-- What a solver can be asked to produce. -/
inductive Product where
  | assertions | assignments | proofs | interpolants | unsatAssumptions | unsatCores
  deriving DecidableEq, Repr

/-- The keyword of a product. -/
def Product.keyword : Product → String
  | assertions => ":produce-assertions"
  | assignments => ":produce-assignments"
  | proofs => ":produce-proofs"
  | interpolants => ":produce-interpolants"
  | unsatAssumptions => ":produce-unsat-assumptions"
  | unsatCores => ":produce-unsat-cores"

/-- The position of a product among the settings. -/
def Product.tag : Product → Nat
  | assertions => 1
  | assignments => 2
  | proofs => 3
  | interpolants => 4
  | unsatAssumptions => 5
  | unsatCores => 6

/-- What a solver can be limited or steered by. -/
inductive Quantity where
  | randomSeed | resourceLimit | verbosity | timeout
  deriving DecidableEq, Repr

/-- The keyword of a quantity. -/
def Quantity.keyword : Quantity → String
  | randomSeed => ":random-seed"
  | resourceLimit => ":reproducible-resource-limit"
  | verbosity => ":verbosity"
  | timeout => ":timeout"

/-- The position of a quantity among the settings. -/
def Quantity.tag : Quantity → Nat
  | randomSeed => 7
  | resourceLimit => 8
  | verbosity => 9
  | timeout => 13

/-- A setting of the solver. -/
inductive Setting where
  | diagnosticOutput (channel : String)
  | produce (product : Product) (value : Bool)
  | limit (quantity : Quantity) (value : Int)
  | option (keyword : String) (arguments : List String)
  | logic (logic : Logic)
  | info (keyword : String) (arguments : List String)
  deriving DecidableEq, Repr

namespace Setting

/-- Whether a text is a keyword. -/
def isKeyword (text : String) : Bool := text.toList.head? == some ':'

/-- An option by its keyword. -/
def ofKeyword (keyword : String) (arguments : List String) : Except Failure Setting :=
  if isKeyword keyword then .ok (.option keyword arguments) else .error (.optionKeyword keyword)

/-- A piece of information by its keyword. -/
def ofInfo (keyword : String) (arguments : List String) : Except Failure Setting :=
  if isKeyword keyword then .ok (.info keyword arguments) else .error (.infoKeyword keyword)

/-- The position of a setting's shape among the settings. -/
def tag : Setting → Nat
  | diagnosticOutput _ => 0
  | produce product _ => product.tag
  | limit quantity _ => quantity.tag
  | option .. => 10
  | logic _ => 11
  | info .. => 12

/-- The logic that a setting asks for. -/
def logic? : Setting → Option Logic
  | logic l => some l
  | _ => none

/-- Whether the setting names the channel for diagnostics. -/
def isDiagnosticOutput : Setting → Bool
  | diagnosticOutput _ => true
  | _ => false

/-- A command with a keyword and its arguments. -/
def command (name keyword : String) (arguments : List String) : String :=
  "(" ++ joined " " (name :: keyword :: arguments) ++ ")"

/-- The line that a setting becomes. -/
def render : Setting → String
  | diagnosticOutput channel =>
    command "set-option" ":diagnostic-output-channel" ["\"" ++ channel ++ "\""]
  | produce product value =>
    command "set-option" product.keyword [if value then "true" else "false"]
  | limit quantity value => command "set-option" quantity.keyword [Numeral.decimal value]
  | option keyword arguments => command "set-option" keyword arguments
  | logic l =>
    if l.isUnset then "; NB. not setting the logic per user request of Logic_NONE"
    else "(set-logic " ++ l.name ++ ")"
  | info keyword arguments => command "set-info" keyword arguments

/-- A setting in words. -/
def describe : Setting → String
  | logic l => "SetLogic " ++ l.describe
  | s => s.render

/-- The logic of a setting that is known to ask for one. -/
def theLogic (s : Setting) : Except Failure Logic :=
  match s.logic? with
  | some l => .ok l
  | none => .error (.logicOfOption s.describe)

end Setting

end SolverScript
