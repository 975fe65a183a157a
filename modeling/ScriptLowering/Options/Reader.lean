import ScriptLowering.Json.Token
import ScriptLowering.Options

/-!
# Reading options

Options are written as a JSON object with the keys `coercionCse`, `typeNormalization`,
`memberCallNormalization` and `maxFixedCallArity`, or as an array of their values in this order.
What is not given keeps its default. Other keys are ignored, a repeated key is an error, and so is
an element too many. A flag is a boolean and the arity a natural number that fits into 64 bits.

Text that is not of this form is malformed; only well-formed options are checked for an arity beyond
the largest call form.
-/

namespace ScriptLowering

/-- Why a text gives no options. -/
inductive OptionsError where
  /-- The text is not JSON, or not of the right form. -/
  | malformed
  /-- The arity exceeds the largest call form of fixed arity. -/
  | arityTooLarge (arity : Nat)
deriving DecidableEq, Inhabited

/-- The message of an error; malformed text has none of its own. -/
def OptionsError.message? : OptionsError → Option String
  | .malformed => none
  | .arityTooLarge arity => some <|
    "Invalid value for maxFixedCallArity: " ++ toString arity
      ++ " exceeds the largest fixed-arity call form (" ++ toString largestFixedArity ++ ")"

namespace Options

open Json (Token)

/-- The four settings. -/
inductive Setting where
  | reuseCoercions
  | normalizeTypes
  | bindMemberCalls
  | fixedArity
deriving DecidableEq, Inhabited

/-- The settings in the order of the array form. -/
def Setting.all : List Setting :=
  [.reuseCoercions, .normalizeTypes, .bindMemberCalls, .fixedArity]

/-- The key of a setting. -/
def Setting.key : Setting → String
  | .reuseCoercions => "coercionCse"
  | .normalizeTypes => "typeNormalization"
  | .bindMemberCalls => "memberCallNormalization"
  | .fixedArity => "maxFixedCallArity"

/-- The setting of a key. -/
def Setting.ofKey? (key : String) : Option Setting :=
  Setting.all.find? (·.key == key)

/-- Gives a setting the value that a token denotes. -/
def set? (options : Options) : Setting → Token → Option Options
  | .reuseCoercions, .bool value => some { options with reuseCoercions := value }
  | .normalizeTypes, .bool value => some { options with normalizeTypes := value }
  | .bindMemberCalls, .bool value => some { options with bindMemberCalls := value }
  | .fixedArity, .natural value =>
    if value < Nat.pow 2 64 then some { options with fixedArity := value } else none
  | _, _ => none

/-- Reads the members of an object from a key on, given the settings that were already read; at most
`bound` members. -/
def readMembers : Nat → Options → List Setting → List Token → Option Options
  | bound + 1, options, seen, .string (some key) :: .colon :: rest => do
    let (options, seen, rest) ← match Setting.ofKey? key with
      | none => do
        let rest ← Json.skipValue [] rest
        pure (options, seen, rest)
      | some setting =>
        if setting ∈ seen then none
        else match rest with
          | [] => none
          | value :: rest => do
            let options ← options.set? setting value
            pure (options, setting :: seen, rest)
    match rest with
    | [.closeObject] => some options
    | .comma :: rest => readMembers bound options seen rest
    | _ => none
  | _, _, _, _ => none

/-- Reads the elements of an array for the settings that are left. -/
def readElements : List Setting → Options → List Token → Option Options
  | setting :: left, options, value :: rest => do
    let options ← options.set? setting value
    match rest with
    | [.closeArray] => some options
    | .comma :: rest => readElements left options rest
    | _ => none
  | _, _, _ => none

/-- The options that tokens denote. -/
def ofTokens? : List Token → Option Options
  | [.openObject, .closeObject] => some {}
  | .openObject :: rest => readMembers rest.length {} [] rest
  | [.openArray, .closeArray] => some {}
  | .openArray :: rest => readElements Setting.all {} rest
  | _ => none

/-- The options that a text denotes. -/
def read (text : String) : Except OptionsError Options :=
  match (Json.tokens? text).bind ofTokens? with
  | none => .error .malformed
  | some options =>
    if largestFixedArity < options.fixedArity then .error (.arityTooLarge options.fixedArity)
    else .ok options

end Options

end ScriptLowering
