import SolverScript.Graph.Node

/-!
# Failures

Everything that can go wrong, one constructor for each cause. A failure is a mistake in the input, a
broken expectation that deserves a report, or a construct that is recognised but not supported;
`Failure.category` says which, and `Failure.message` words it.

Where a cause speaks of an operation, it holds the text that the message shows.
-/

namespace SolverScript

/-- Who has to act on a failure. -/
inductive FailureCategory where
  /-- The input asks for something that has no meaning. -/
  | mistake
  /-- An expectation about the input's construction does not hold. -/
  | defect
  /-- The input is meaningful, but not covered. -/
  | unsupported
  deriving DecidableEq, Repr

/-- The causes of failure. -/
inductive Failure where
  -- kinds
  | zeroWidth
  | narrowFloat (exponent significand : Nat)
  -- values
  | integerOfKind (kind : Kind)
  | constantOfKind (kind : Kind)
  | realZeroDenominator
  | rationalZeroDenominator
  | floatBits (exponent significand : Nat)
  | codePoint (n : Nat)
  | userSortExpected (kind : Kind)
  | unknownConstructor (constructor sort : String)
  | malformedText (bytes : String)
  -- operators
  | emptyExtraction (high low : Nat)
  | invalidProjection (position arity : Nat)
  | irreversible (kind : Kind)
  | bareFloatCast
  | bareMembership
  | bareReversal
  | floatExpected (kind : Kind)
  | noOwnSymbol (operator : String)
  -- solver options
  | emptyLogicName
  | optionKeyword (keyword : String)
  | infoKeyword (keyword : String)
  | unknownSolver (name : String)
  | logicOfOption (option : String)
  -- encoding of operations
  | operandCount (construct : String) (operands : List String)
  | lookupIndex (kind : Kind) (operation : String)
  | bitVectorsExpected (onIntegers : Bool) (operation : String)
  | unexpectedCast (source target : Kind)
  | unexpectedFloatCast (source target : Kind)
  | inexpressible (operation : String)
  | missingReversal (operation : String)
  | userSortOperator (operator : String) (kinds : List String) (operation : String)
  -- declarations
  | sortExpected (kind : Kind)
  | oneTuple
  | emptySignature
  | emptySignatureOf (symbol : String)
  | reversalOfKind (kind : Kind) (symbol : String)
  -- arrays
  | deferredArrayUnderQuantifier
  | freeArrayOfChars
  -- references inside a problem
  | dependentUniversal (node : Node)
  | creationOrder (node : Node) (last : Int)
  | unknownOperand (user operand : Node)
  | unknownPart (user : String) (operand : Node)
  | unknownArray (user other : Int)
  -- choice of the logic
  | severalLogics (names : List String)
  | unmetRequirements (solver : String) (requirements : List String)
  -- final assertions
  | attributesUnderQuantifiers (quantified : List Node) (names : List String)
  | softUnderQuantifiers (quantified : List Node) (literals : List String)
  -- traces
  | unknownTraceOption (name : String) (known : List String)
  deriving Repr

namespace Failure

/-- Who has to act on a failure. -/
def category : Failure → FailureCategory
  | constantOfKind _ | bareFloatCast | bareMembership | bareReversal | floatExpected _
  | noOwnSymbol _ | logicOfOption _ | operandCount .. | lookupIndex .. | bitVectorsExpected ..
  | unexpectedCast .. | unexpectedFloatCast .. | inexpressible _ | missingReversal _
  | sortExpected _ | oneTuple | emptySignature | emptySignatureOf _ | reversalOfKind .. => .defect
  | deferredArrayUnderQuantifier | freeArrayOfChars => .unsupported
  | _ => .mistake

/-- The two lines that name a missing requirement. -/
def requirementLines (solver requirement : String) : List String :=
  ["***     Given problem requires support for " ++ requirement,
    "***     But the chosen solver (" ++ solver ++ ") doesn't support this feature."]

/-- The cause in words, without the framing of its category. -/
def description : Failure → String
  | zeroWidth => "Bit-vector kinds must have a non-zero width"
  | narrowFloat e s =>
    "Invalid floating point kind: exponent and significand widths must both be at least 2, got " ++
      Nat.repr e ++ " and " ++ Nat.repr s
  | integerOfKind kind => "Cannot create an integer value of kind " ++ kind.name
  | constantOfKind kind => "Cannot create a numeric constant of kind " ++ kind.name
  | realZeroDenominator => "Real values cannot have a zero denominator"
  | rationalZeroDenominator => "Rational values cannot have a zero denominator"
  | floatBits e s =>
    "Malformed bit strings for a floating point value with " ++ Nat.repr e ++
      " exponent bits and " ++ Nat.repr s ++ " significand bits"
  | codePoint n => "Not a Unicode code point: " ++ Nat.repr n
  | userSortExpected kind => "Expected a user sort, got " ++ kind.name
  | unknownConstructor constructor sort =>
    "\"" ++ constructor ++ "\" is not a constructor of the sort " ++ sort
  | malformedText bytes => "String is not valid UTF-8: " ++ bytes
  | emptyExtraction high low =>
    "Invalid bounds for bit extraction: " ++ Nat.repr high ++ " < " ++ Nat.repr low
  | invalidProjection position arity =>
    "Invalid projection " ++ Nat.repr position ++ " from a tuple of arity " ++ Nat.repr arity
  | irreversible kind => "Only strings and lists can be reversed, got: " ++ kind.name
  | bareFloatCast => "Floating point casts carry their kinds, use MkFPCast or MkFPReinterp"
  | bareMembership => "Regular expression membership carries its expression, use MkStrInRe"
  | bareReversal => "Reversal carries the kind being reversed, use MkSeqReverse"
  | floatExpected kind => "Expected a floating point kind, got: " ++ kind.name
  | noOwnSymbol operator =>
    "Operator " ++ operator ++ " has no SMT-LIB2 function symbol of its own"
  | emptyLogicName => "Logic names cannot be empty"
  | optionKeyword keyword =>
    "Option keywords must begin with a colon, got: \"" ++ keyword ++ "\""
  | infoKeyword keyword => "Info keywords must begin with a colon, got: \"" ++ keyword ++ "\""
  | unknownSolver name =>
    "Unknown solver \"" ++ name ++
      "\". Known solvers are: Z3, CVC5, Yices, Boolector and MathSAT"
  | logicOfOption option => "GetLogic() called on option " ++ option
  | operandCount construct operands =>
    "Unexpected arguments to " ++ construct ++ ": [" ++ joined ", " operands ++ "]"
  | lookupIndex kind operation =>
    "Unexpected " ++ kind.name ++ " valued index in table lookup: " ++ operation
  | bitVectorsExpected onIntegers operation =>
    "Unsupported operation on " ++
      (if onIntegers then "unbounded integers: " else "real values: ") ++ operation
  | unexpectedCast source target =>
    "Unexpected cast from: " ++ source.name ++ " to " ++ target.name
  | unexpectedFloatCast source target =>
    "Unexpected FPCast from: " ++ source.name ++ " to " ++ target.name
  | inexpressible operation => "Impossible happened; can't translate: " ++ operation
  | missingReversal operation =>
    "Impossible happened; can't translate: " ++ operation ++
      "\nNo helper function was declared for the reversal"
  | userSortOperator operator kinds operation =>
    joined "\n"
      ["",
        "*** Cannot translate operator        : " ++ operator,
        "*** When applied to arguments of kind: " ++ joined ", " kinds,
        "*** Found as part of the expression  : " ++ operation,
        "***",
        "*** Note that uninterpreted kinds only support equality.",
        "*** If you believe this is in error, please report!",
        ""]
  | sortExpected kind => "DeclSort called on a non-sort kind: " ++ kind.name
  | oneTuple => "DeclTuple: Unexpected one-tuple"
  | emptySignature => "CvtType received an empty signature"
  | emptySignatureOf symbol => "Unexpected empty signature for: " ++ symbol
  | reversalOfKind kind symbol =>
    "DeclSBVFunc: Unexpected helper function: reverse of " ++ kind.name ++ " named " ++ symbol
  | deferredArrayUnderQuantifier => "Non-constant array initializer in a quantified context"
  | freeArrayOfChars => "Free array declarations containing SChars"
  | dependentUniversal node =>
    "Universal variable " ++ node.name ++ " cannot depend on other variables"
  | creationOrder node last =>
    "Assignments are not in creation order: " ++ node.name ++ " follows s" ++
      Numeral.decimal last
  | unknownOperand user operand =>
    "Node " ++ user.name ++ " refers to " ++ operand.name ++
      ", which is neither an earlier node, an input nor a constant"
  | unknownPart user operand =>
    user ++ " refers to " ++ operand.name ++
      ", which is neither a node, an input nor a constant"
  | unknownArray user other =>
    "array_" ++ Numeral.decimal user ++ " refers to array_" ++ Numeral.decimal other ++
      ", which is not part of the problem"
  | severalLogics names =>
    "\n*** Only one setOption call to 'setLogic' is allowed, found: " ++ Nat.repr names.length ++
      "\n***  " ++ joined " " names ++ "\n"
  | unmetRequirements solver requirements =>
    joined "\n"
      (["", "*** SMTG is unable to choose a proper solver configuration:", "***"] ++
        requirements.flatMap (requirementLines solver) ++
        ["***",
          "*** Please report this as a feature request, either for SMTG or the backend solver.",
          ""])
  | attributesUnderQuantifiers quantified names =>
    "Constraints with attributes and quantifiers cannot be mixed!\n" ++
      "   Quantified variables: " ++ joined " " (quantified.map Node.name) ++
      "\n   Named constraints   : " ++ joined ", " names
  | softUnderQuantifiers quantified literals =>
    "Soft constraints and quantifiers cannot be mixed!\n" ++
      "   Quantified variables: " ++ joined " " (quantified.map Node.name) ++
      "\n   Soft constraints    : " ++ joined ", " literals
  | unknownTraceOption name known =>
    "Log option \"" ++ name ++ "\" is not a recognized log option or component. Known options: " ++
      joined ", " known

/-- The cause in words, framed by its category. -/
def wording (f : Failure) : String :=
  match f.category with
  | .mistake => f.description
  | .defect => "InternalError: " ++ f.description ++ "\nPlease report this as a bug."
  | .unsupported => "Not-yet-supported: " ++ f.description

/-- The message of a failure. Messages are zero-terminated: texts that the input contributes may
hold the zero byte, and what follows the first one is not shown. -/
def message (f : Failure) : String :=
  String.ofList (f.wording.toList.takeWhile (· ≠ '\x00'))

end Failure

end SolverScript
