import Chiptune.Shell.Job

/-!
# Arguments

The words after the program's name. A word is an option with a long name, a cluster of options
with one-letter names, or a plain word; after a double dash all words are plain. An option that
takes a value finds it behind an equals sign or in the next word. Each option is given at most
once, and the first word that fits nothing ends the reading.

* `parse_nil`: without any words the program shows its help.
-/

namespace Chiptune.Shell

/-- What the words ask for. -/
inductive Request where
  /-- Explain the program because nothing was asked for. -/
  | missing
  | help
  | version
  | usage
  | job (j : Job)
  deriving DecidableEq, Repr, Inhabited

/-- The number that some digits spell. -/
def natural? (digits : List Char) : Option Nat :=
  if digits.isEmpty then none
  else digits.foldlM (fun n c =>
    if c.isDigit then some (n * 10 + (c.toNat - '0'.toNat)) else none) 0

/-- A number of 32 bits. A sign may stand before it, and minus zero is zero. -/
def word32? (text : String) : Option Nat :=
  match text.toList with
  | '+' :: digits => (natural? digits).filter (· < 0x100000000)
  | '-' :: digits => (natural? digits).filter (· = 0)
  | digits => (natural? digits).filter (· < 0x100000000)

/-- A number of 64 bits. A plus may stand before it. -/
def word64? (text : String) : Option Nat :=
  match text.toList with
  | '+' :: digits => (natural? digits).filter (· < 0x10000000000000000)
  | digits => (natural? digits).filter (· < 0x10000000000000000)

/-- An option. -/
inductive Flag where
  | verbose
  | help
  | version
  | rate
  | song
  | loops
  | stereo
  | quad
  | ntsc
  | noFilter
  | unsignedRaw
  deriving DecidableEq, Repr, Inhabited

namespace Flag

def name : Flag → String
  | .verbose => "verbose"
  | .help => "help"
  | .version => "version"
  | .rate => "rate"
  | .song => "song"
  | .loops => "loops"
  | .stereo => "stereo"
  | .quad => "quad"
  | .ntsc => "ntsc"
  | .noFilter => "no-filter"
  | .unsignedRaw => "unsigned-raw"

/-- The one-letter name of an option, if it has one. -/
def letter? : Flag → Option Char
  | .verbose => some 'v'
  | .help => some 'h'
  | .version => some 'V'
  | .rate => some 'r'
  | .song => some 's'
  | .loops => some 'l'
  | _ => none

def takesValue : Flag → Bool
  | .rate | .song | .loops => true
  | _ => false

end Flag

/-- The commands by name. -/
inductive Verb where
  | convert
  | decode
  | info
  deriving DecidableEq, Repr, Inhabited

namespace Verb

def ofName? : String → Option Verb
  | "convert" => some .convert
  | "decode" => some .decode
  | "info" => some .info
  | _ => none

def flags : Verb → List Flag
  | .convert =>
    [.verbose, .help, .rate, .song, .loops, .stereo, .quad, .ntsc, .noFilter, .unsignedRaw]
  | _ => [.verbose, .help]

/-- The number of plain words that a command takes. -/
def words : Verb → Nat
  | .convert => 2
  | .decode => 2
  | .info => 1

end Verb

def topFlags : List Flag :=
  [.verbose, .help, .version]

/-- What was read so far: options with their values, and plain words. -/
structure Reading where
  options : List (Flag × Option String)
  words : List String
  deriving DecidableEq, Repr, Inhabited

namespace Reading

def start : Reading :=
  ⟨[], []⟩

def has (r : Reading) (f : Flag) : Bool :=
  r.options.any (·.1 = f)

/-- The value of an option, if it was given. -/
def value? (r : Reading) (f : Flag) : Option String :=
  (r.options.lookup f).join

end Reading

def suits (f : Flag) (value : String) : Bool :=
  match f with
  | .song => (word64? value).isSome
  | _ => (word32? value).isSome

/-- One more option. Help and version are answered at once; an option given twice, or with a value
that it cannot take, is refused. -/
def Reading.add (r : Reading) (f : Flag) (value : Option String) : Except Request Reading :=
  match f, value with
  | .help, none => .error .help
  | .version, none => .error .version
  | f, value =>
    if r.has f || f.takesValue != value.isSome || !value.all (suits f) then .error .usage
    else .ok { r with options := r.options ++ [(f, value)] }

/-- One more plain word, of at most `most`; a path is never empty. -/
def Reading.addWord (r : Reading) (most : Nat) (word : String) : Except Request Reading :=
  if word = "" || most ≤ r.words.length then .error .usage
  else .ok { r with words := r.words ++ [word] }

/-- What a word leaves open: nothing, or the value of an option. -/
abbrev Pending := Option Flag

/-- A cluster of one-letter options. -/
def readCluster (known : List Flag) (r : Reading) : List Char → Except Request (Reading × Pending)
  | [] => .ok (r, none)
  | c :: rest =>
    match known.find? (·.letter? = some c) with
    | none => .error .usage
    | some f =>
      if f.takesValue then
        match rest with
        | [] => .ok (r, some f)
        | '=' :: value => (r.add f (some (String.ofList value))).map (·, none)
        | value => (r.add f (some (String.ofList value))).map (·, none)
      else match r.add f none with
        | .error request => .error request
        | .ok r => readCluster known r rest

/-- An option with a long name, with or without a value behind an equals sign. -/
def readLong (known : List Flag) (r : Reading) (body : List Char) :
    Except Request (Reading × Pending) :=
  let name := String.ofList (body.takeWhile (· ≠ '='))
  match known.find? (·.name = name), body.dropWhile (· ≠ '=') with
  | none, _ => .error .usage
  | some f, [] => if f.takesValue then .ok (r, some f) else (r.add f none).map (·, none)
  | some f, _ :: value => (r.add f (some (String.ofList value))).map (·, none)

/-- Plain words, to the end. -/
def readWords (most : Nat) (r : Reading) : List String → Except Request Reading
  | [] => .ok r
  | word :: rest => match r.addWord most word with
    | .error request => .error request
    | .ok r => readWords most r rest

def readAll (known : List Flag) (most : Nat) : Reading → Pending → List String →
    Except Request Reading
  | r, none, [] => .ok r
  | _, some _, [] => .error .usage
  | r, pending, word :: rest =>
    match pending, word.toList with
    | none, ['-', '-'] => readWords most r rest
    -- a word that begins with a dash is never the value of the option before it
    | some _, ['-', '-'] => .error .usage
    | none, '-' :: '-' :: body => match readLong known r body with
      | .error request => .error request
      | .ok (r, pending) => readAll known most r pending rest
    | none, '-' :: c :: body => match readCluster known r (c :: body) with
      | .error request => .error request
      | .ok (r, pending) => readAll known most r pending rest
    | some _, '-' :: _ :: _ => .error .usage
    | some f, _ => match r.add f (some word) with
      | .error request => .error request
      | .ok r => readAll known most r none rest
    | none, _ => match r.addWord most word with
      | .error request => .error request
      | .ok r => readAll known most r none rest

def Reading.outputs (r : Reading) : Outputs :=
  if r.has .quad then .quad else if r.has .stereo then .stereo else .mono

def Reading.rendering (r : Reading) : Rendering where
  setup :=
    { rate := ((r.value? .rate).bind word32?).getD 44100
      outputs := r.outputs
      allowFilter := !r.has .noFilter
      standard := if r.has .ntsc then .ntsc else .pal }
  song := ((r.value? .song).bind word64?).getD 0
  loops := ((r.value? .loops).bind word32?).getD 0
  unsignedRaw := r.has .unsignedRaw

/-- The job that was read, if all its words are there and its options agree. -/
def Reading.job? (r : Reading) (verb : Verb) : Option Job :=
  match verb, r.words with
  | .convert, [input, output] =>
    if r.has .stereo && r.has .quad then none else some (.convert input output r.rendering)
  | .decode, [input, output] => some (.decode input output)
  | .info, [input] => some (.info input)
  | _, _ => none

def parseVerb (verb : Verb) (words : List String) : Request :=
  match readAll verb.flags verb.words .start none words with
  | .error request => request
  | .ok r => match r.job? verb with
    | none => .usage
    | some j => .job j

/-- The request of the words after `help`: to explain the program, or the one command that they name. -/
def parseHelp : List String → Request
  | [] => .help
  | [word] => if (Verb.ofName? word).isSome || word = "help" then .help else .usage
  | _ => .usage

/-- The request of all words, with the options read so far. -/
def parseTop (r : Reading) : List String → Request
  | [] => if r.options.isEmpty then .missing else .usage
  | word :: rest =>
    match word.toList with
    | ['-', '-'] => if rest.isEmpty && r.options.isEmpty then .missing else .usage
    | '-' :: '-' :: body => match readLong topFlags r body with
      | .error request => request
      | .ok (r, _) => parseTop r rest
    | '-' :: c :: body => match readCluster topFlags r (c :: body) with
      | .error request => request
      | .ok (r, _) => parseTop r rest
    | _ => match Verb.ofName? word with
      | some verb => parseVerb verb rest
      | none => if word = "help" then parseHelp rest else .usage

/-- The request of the words after the program's name. -/
def parse (words : List String) : Request :=
  parseTop .start words

/-- Without any words the program shows its help. -/
theorem parse_nil : parse [] = .missing :=
  rfl

end Chiptune.Shell
