import DotLambda.Run
import DotLambda.Text.Integer

namespace DotLambda

/-!
# Settings

Options taken from environment variables.  A variable that is empty counts as not set.

* `Environment` — the value of each variable;
* `SettingError` — why a value is refused;
* `Options.ofEnvironment` — the options, and the first value that is refused.
-/

/-- The values of environment variables; empty where a variable is not set. -/
abbrev Environment := String → String

/-- Why the value of a variable is refused. -/
inductive SettingError where
  /-- It is no integer. -/
  | integer (key value : String) (fault : IntegerFault)
  /-- It is a negative integer. -/
  | negative (key : String) (value : Int)
  /-- It is no truth value. -/
  | truth (key value : String)
deriving DecidableEq

/-- The wording of a refusal. -/
def SettingError.message : SettingError → String
  | integer key value fault =>
    key ++ ": strconv.Atoi: parsing " ++ quoted value ++ ": " ++
      match fault with
      | .malformed => "invalid syntax"
      | .outOfRange => "value out of range"
  | negative key value => key ++ ": must not be negative, got " ++ toString value
  | truth key value => key ++ ": strconv.ParseBool: parsing " ++ quoted value ++ ": invalid syntax"

/-- A variable that holds a number of steps, or `default` where it is not set. -/
def Environment.steps (env : Environment) (key : String) (default : Int) :
    Except SettingError Int :=
  let value := env key
  if value.isEmpty then .ok default
  else
    match readInteger value.toList with
    | .error fault => .error (.integer key value fault)
    | .ok n => if n < 0 then .error (.negative key n) else .ok n

/-- A variable that holds a truth value, or `default` where it is not set. -/
def Environment.truth (env : Environment) (key : String) (default : Bool) :
    Except SettingError Bool :=
  let value := env key
  if value.isEmpty then .ok default
  else
    match readTruth? value with
    | none => .error (.truth key value)
    | some b => .ok b

/-- Whether a variable is set. -/
def Environment.isSet (env : Environment) (key : String) : Bool :=
  !(env key).isEmpty

/-- The options that an environment asks for, and why it asks in vain.  Variables are looked at in
    a fixed order, and the first value that is refused ends it: the options are then what the
    variables before have set. -/
def Options.ofEnvironment (env : Environment) : Options × Option SettingError :=
  let options : Options := {}
  match env.steps "BLIS_MAX_STEPS" options.maxSteps with
  | .error e => (options, some e)
  | .ok maxSteps =>
    let options := { options with maxSteps }
    match env.steps "BLIS_ARG_STEPS" options.parameterSteps with
    | .error e => (options, some e)
    | .ok parameterSteps =>
      let options := { options with parameterSteps }
      match env.truth "BLIS_INDENT" options.overLines with
      | .error e => (options, some e)
      | .ok overLines => ({ options with overLines }, none)

end DotLambda
