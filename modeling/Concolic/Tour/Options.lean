import Concolic.Tour.Host

/-!
# Options of the tour

The tour takes the number of runs as its one operand, and three options: `-k`
or `--k` with the largest number of ancestors in a query, `--dot` with a file
for the drawing, and `--verbose`.  A value follows its option as the next word,
or is attached to it, after `=` if the option is long; a short option may have
`=` or nothing in between.  A following word that itself looks like an option
is no value.  Nothing may be given twice.  After the word `--` all words are
operands.

Words are read from the left, and the first one that is amiss decides.
-/

namespace Concolic

namespace Tour

/-- What the tour was asked to do. -/
structure Options where
  /-- The number of runs to observe. -/
  runs : Nat := 6
  /-- The largest number of ancestors in a query. -/
  k : Nat := 4
  /-- The file for the drawing. -/
  dot : Option String := none
  verbose : Bool := false
  deriving DecidableEq

/-! ## Options as shown -/

/-- The line that repeats the options. -/
def Options.text (options : Options) (host : Host := {}) : String :=
  "args = Cli \x7b runs: " ++ toString options.runs ++ ", k: " ++ toString options.k ++
    ", dot: " ++ options.dot.elim "None" (fun file =>
      "Some(" ++ Text.quoted file host.isUnseen ++ ")") ++
    ", verbose: " ++ (if options.verbose then "true" else "false") ++ " \x7d"

/-! ## Reading words -/

/-- How to call the program. -/
def usage : String :=
  "Usage: tour [-k INT] [--dot FILE] [--verbose] [INT]"

/-- The name and version of the program. -/
def release : String :=
  "tour 0.1.0"

/-- What is amiss with the words of a command. -/
inductive Misuse where
  | unknownOption (word : String)
  | repeated (name : String)
  | missingValue (name : String)
  | unexpectedValue (name : String)
  | notACount (word : String)
  | extraOperand (word : String)
  deriving DecidableEq

/-- The wording of a misuse. -/
def Misuse.message : Misuse → String
  | .unknownOption word => "unknown option " ++ Text.quoted word
  | .repeated name => name ++ " may be given only once"
  | .missingValue name => name ++ " needs a value"
  | .unexpectedValue name => name ++ " takes no value"
  | .notACount word => Text.quoted word ++ " is not a count"
  | .extraOperand word => "unexpected operand " ++ Text.quoted word

/-- What a command asks for. -/
inductive Command where
  | tour (options : Options)
  | help
  | version
  deriving DecidableEq

/-- Counts are 64-bit words. -/
def countLimit : Nat := Nat.pow 2 64

/-- The count that a word denotes: decimal digits, perhaps after a plus sign. -/
def count? (word : String) : Option Nat :=
  let digits := match word.toList with
    | '+' :: rest => rest
    | all => all
  if digits.isEmpty || !digits.all Char.isDigit then none
  else
    let n := digits.foldl (fun n c => 10 * n + (c.toNat - '0'.toNat)) 0
    if n < countLimit then some n else none

/-- The options that take a value. -/
inductive Key where
  | k
  | dot
  deriving DecidableEq

/-- The long name of an option. -/
def Key.name : Key → String
  | .k => "--k"
  | .dot => "--dot"

/-- The role of a word in a command. -/
inductive Role where
  | operand
  /-- An option, with the value that is attached to it, if one is. -/
  | key (key : Key) (attached : Option String)
  | verbose
  | help
  | version
  | endOfOptions
  /-- A long option that takes no value has one attached. -/
  | overloaded (name : String)
  | unknown
  deriving DecidableEq

/-- The role of a long option, by its name and the value attached to it. -/
def longRole (name : String) (attached : Option String) : Role :=
  match name, attached with
  | "k", value => .key .k value
  | "dot", value => .key .dot value
  | "verbose", none => .verbose
  | "help", none => .help
  | "version", none => .version
  | "verbose", some _ => .overloaded "--verbose"
  | "help", some _ => .overloaded "--help"
  | "version", some _ => .overloaded "--version"
  | _, _ => .unknown

/-- The role of a word, as far as it can be told from the word alone. -/
def role (word : String) : Role :=
  match word.toList with
  | ['-'] => .operand
  | ['-', '-'] => .endOfOptions
  | '-' :: '-' :: rest =>
      let name := String.ofList (rest.takeWhile (· != '='))
      match rest.dropWhile (· != '=') with
      | [] => longRole name none
      | _ :: value => longRole name (some (String.ofList value))
  | ['-', 'k'] => .key .k none
  | '-' :: 'k' :: '=' :: value => .key .k (some (String.ofList value))
  | '-' :: 'k' :: value => .key .k (some (String.ofList value))
  | '-' :: 'h' :: _ => .help
  | '-' :: 'V' :: _ => .version
  | '-' :: _ => .unknown
  | _ => .operand

/-- What the words read so far have settled. -/
structure Settled where
  runs : Option Nat := none
  k : Option Nat := none
  dot : Option String := none
  verbose : Bool := false
  deriving DecidableEq

/-- The options that result when no word is left; what was not given has its
usual value. -/
def Settled.options (settled : Settled) : Options :=
  let usual : Options := {}
  { runs := settled.runs.getD usual.runs
    k := settled.k.getD usual.k
    dot := settled.dot
    verbose := settled.verbose }

/-- Settle an option that takes a value. -/
def Settled.set (settled : Settled) (key : Key) (value : String) : Except Misuse Settled :=
  match key with
  | .k =>
      if settled.k.isSome then .error (.repeated key.name)
      else match count? value with
        | some n => .ok { settled with k := some n }
        | none => .error (.notACount value)
  | .dot =>
      if settled.dot.isSome then .error (.repeated key.name)
      else if value.isEmpty then .error (.missingValue key.name)
      else .ok { settled with dot := some value }

/-- Settle the operand. -/
def Settled.operand (settled : Settled) (word : String) : Except Misuse Settled :=
  if settled.runs.isSome then .error (.extraOperand word)
  else match count? word with
    | some n => .ok { settled with runs := some n }
    | none => .error (.notACount word)

/-- Read the remaining words. -/
def Settled.read (settled : Settled) : List String → Except Misuse Command
  | [] => .ok (.tour settled.options)
  | word :: rest =>
      match role word with
      | .operand => do (← settled.operand word).read rest
      | .key key (some value) => do (← settled.set key value).read rest
      | .key key none =>
          match rest with
          | [] => .error (.missingValue key.name)
          | value :: rest =>
              if role value = .operand then do (← settled.set key value).read rest
              else .error (.missingValue key.name)
      | .verbose =>
          if settled.verbose then .error (.repeated "--verbose")
          else Settled.read { settled with verbose := true } rest
      | .help => .ok .help
      | .version => .ok .version
      | .endOfOptions => do return .tour (← rest.foldlM Settled.operand settled).options
      | .overloaded name => .error (.unexpectedValue name)
      | .unknown => .error (.unknownOption word)

/-- Read the words of a command. -/
def Command.ofWords (words : List String) : Except Misuse Command :=
  Settled.read {} words

end Tour

end Concolic
