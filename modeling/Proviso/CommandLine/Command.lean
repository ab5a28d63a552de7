import Proviso.CommandLine.Path
import Proviso.Config
import Proviso.Diagnostic
import Proviso.Evaluate
import Proviso.Listing

/-!
# Commands

What the arguments ask for, and what becomes of it once the input file has been read. Nothing here
touches a file: a command says which file it wants, and is told what was in it or why it could not
be read.
-/

namespace Proviso

/-- How a command ends: its exit code, its output, and its log. -/
structure Report where
  exit : UInt32
  output : String
  log : List Record
  deriving DecidableEq

namespace Report

/-- Success with some output. -/
def success (output : String) (log : List Record) : Report :=
  ⟨0, output, log⟩

/-- Failure with a last word. -/
def failure (log : List Record) (message : String) : Report :=
  ⟨1, "", log ++ [⟨.error, message⟩]⟩

/-- The records that a log level keeps. -/
def filtered (level : Level) (r : Report) : Report :=
  { r with log := r.log.filter fun record => level.enabled record.level }

end Report

/-- Options of a run. -/
structure RunOptions where
  account : Address
  sender : Address
  value : UInt256
  timestamp : UInt64
  block : UInt64
  /-- Names of local variables with the words they hold, a later one winning. -/
  locals : List (String × Word)

/-- What the program is asked to do. -/
inductive Command where
  | tokens (input : String)
  | compile (input output : String)
  | listing (input : String)
  | run (input : String) (options : RunOptions)

/-- The file that a command reads. -/
def Command.input : Command → String
  | .tokens input | .compile input _ | .listing input | .run input _ => input

/-! ### Reading the arguments -/

namespace RunOptions

/-- The account `0x…01`, at block zero, without a message. -/
def default : RunOptions where
  account := .ofNat 1
  sender := .zero
  value := .zero
  timestamp := 0
  block := 0
  locals := []

/-- The account that the value of an option spells. -/
def readAddress (option text : String) : Except String Address :=
  match (Octets.ofHex? text : Option Address) with
  | some a => .ok a
  | none   => .error (option ++ ": '" ++ text ++ "' is not a 20-byte hex address")

/-- What is said of a value that is no number, or too large a one. -/
def badNumber (option text : String) : String :=
  option ++ ": '" ++ text ++ "' is not a valid number"

/-- The number below `2 ^ 64` that the value of an option spells. -/
def readUInt64 (option text : String) : Except String UInt64 :=
  match Config.nat64? text with
  | some n => .ok (.ofNat n)
  | none   => .error (badNumber option text)

/-- The number below `2 ^ 256` that the value of an option spells. -/
def readUInt256 (option text : String) : Except String UInt256 :=
  match UInt256.ofDecimal? text with
  | some v => .ok v
  | none   => .error (badNumber option text)

/-- The word that a flag, an address, a word or a decimal number writes. -/
def readWord? (text : String) : Option Word :=
  if text = "true" then some (.ofBool true)
  else if text = "false" then some (.ofBool false)
  else (Literal.ofToken? text).map Literal.toWord

/-- A name and a value with an equals sign between them. -/
def readVariable (option text : String) : Except String (String × Word) :=
  match Token.splitAt? '=' text.toList with
  | none => .error (option ++ ": expected NAME=VALUE, got '" ++ text ++ "'")
  | some (name, raw) =>
    match readWord? (String.ofList raw) with
    | some w => .ok (String.ofList name, w)
    | none   => .error (option ++ ": cannot parse value '" ++ String.ofList raw ++ "'")

/-- The options with one more. -/
def withOption (o : RunOptions) (option value : String) : Except String RunOptions :=
  if option = "--account" then
    (readAddress option value).map fun a => { o with account := a }
  else if option = "--sender" then
    (readAddress option value).map fun a => { o with sender := a }
  else if option = "--value" then
    (readUInt256 option value).map fun v => { o with value := v }
  else if option = "--timestamp" then
    (readUInt64 option value).map fun n => { o with timestamp := n }
  else if option = "--block" then
    (readUInt64 option value).map fun n => { o with block := n }
  else if option = "--set" then
    (readVariable option value).map fun v => { o with locals := o.locals ++ [v] }
  else .error ("unexpected argument: " ++ option)

/-- Options in pairs of a name and a value. -/
def ofArguments (o : RunOptions) : List String → Except String RunOptions
  | []                   => .ok o
  | [option]             => .error (option ++ " requires an argument")
  | option :: value :: r =>
    match o.withOption option value with
    | .error e => .error e
    | .ok o'   => o'.ofArguments r

/-- The host that the options describe. -/
def host (o : RunOptions) : Host :=
  { Host.empty with
    blockNumber := o.block
    blockTimestamp := o.timestamp
    sender := o.sender
    value := o.value }

/-- The storage that the options describe. -/
def storage (o : RunOptions) : Storage :=
  .ofList (o.locals.map fun v => ((o.account, Slot.ofName v.1), v.2))

end RunOptions

namespace Command

/-- Where the bytes of a program go by default: beside the input, with the ending `.bin`. -/
def defaultOutput (input : String) : String :=
  Path.join (Path.parent input) (Path.stem ((Path.fileName? input).getD "") ++ ".bin")

/-- How the program is to be called. -/
def usage : String :=
  String.join ([
    "Condition Compiler",
    "",
    "USAGE:",
    "    condc <COMMAND> <input> [OPTIONS]",
    "",
    "COMMANDS:",
    "    tokens <input>                 Print the preprocessed token stream",
    "    compile <input> [-o <file>]    Write bytecode (defaults to <input>.bin)",
    "    disasm <input.bin>             Print a bytecode listing",
    "    run <input> [OPTIONS]          Compile and execute",
    "",
    "RUN OPTIONS:",
    "    --account <address>     Executing account (defaults to 0x..01)",
    "    --sender <address>      Message sender",
    "    --value <n>             Message value",
    "    --timestamp <n>         Block timestamp",
    "    --block <n>             Block number",
    "    --set <NAME=VALUE>      Seed a local slot (repeatable)",
    "",
    "ENVIRONMENT:",
    "    CONDSCRIPT_LOG, CONDSCRIPT_MAX_STACK, CONDSCRIPT_MAX_CALL_DEPTH"].map (· ++ "\n"))

/-- The command that a name stands for; a name that stands for none is reported with the usage. -/
def named (name input : String) (rest : List String) : Except Report Command :=
  if name = "tokens" then .ok (.tokens input)
  else if name = "compile" then
    match rest with
    | [] => .ok (.compile input (defaultOutput input))
    | [option, output] =>
        if option = "-o" ∨ option = "--output" then .ok (.compile input output)
        else .error (.failure [] "compile accepts only -o <file>")
    | _ => .error (.failure [] "compile accepts only -o <file>")
  else if name = "disasm" then .ok (.listing input)
  else if name = "run" then
    match RunOptions.default.ofArguments rest with
    | .ok options => .ok (.run input options)
    | .error e    => .error (.failure [] e)
  else
    .error ⟨1, "", [⟨.error, "Unknown command: " ++ name ++ "\n"⟩, ⟨.info, usage⟩]⟩

/-- The settings and the command that environment and arguments ask for, or the report that ends
it all. -/
def ofArguments (lookup : String → Option String) (args : List String) :
    Except Report (Config × Command) :=
  let help := args.head? = some "--help" ∨ args.head? = some "-h"
  match args with
  | name :: input :: rest =>
    if help then .error ⟨0, "", [⟨.info, usage⟩]⟩
    else
      match Config.ofEnvironment lookup with
      | .error e => .error (.failure [] e.message)
      | .ok c    =>
        match named name input rest with
        | .error r  => .error (r.filtered c.level)
        | .ok cmd   => .ok (c, cmd)
  | _ => .error ⟨if help then 0 else 1, "", [⟨.info, usage⟩]⟩

/-! ### Carrying out a command -/

/-- What comes of a command: its report, or bytes to be written to a file first. The report then
depends on why the file could not be written, if so. -/
inductive Outcome where
  | done (r : Report)
  | write (path : String) (bytes : List UInt8) (report : Option String → Report)

/-- The text of a file, or why there is none. -/
def sourceText (input : String) (content : Except String (List UInt8)) : Except String String :=
  match content with
  | .error e  => .error ("cannot read " ++ input ++ ": " ++ e)
  | .ok bytes =>
    match ofUTF8? bytes with
    | some s => .ok s
    | none   => .error ("cannot read " ++ input ++ ": stream did not contain valid UTF-8")

/-- What preprocessing a text reports. -/
def preprocessed (text : String) (ts : List Token) : Record :=
  ⟨.debug, "preprocessed " ++ Nat.repr (utf8 text).length ++ " bytes into "
    ++ Nat.repr ts.length ++ " tokens"⟩

/-- The bytes of a text, with the log of their compilation. -/
def compileLogged (file text : String) : List Record × Option (List UInt8) :=
  let diagnostic (e : CompileError) : Record :=
    ⟨.error, Text.trimEnd (Diagnostic.render file text e)⟩
  match preprocess .standard text with
  | .error e => ([diagnostic e], none)
  | .ok ts   =>
    match assemble ts with
    | .error e => ([preprocessed text ts, diagnostic e], none)
    | .ok code => ([preprocessed text ts], some code)

/-- Prints the tokens that the assembly of a program is read from. -/
def runTokens (input : String) (content : Except String (List UInt8)) : Report :=
  match sourceText input content with
  | .error e => .failure [] e
  | .ok text =>
    match preprocess .standard text with
    | .error e => .failure [] e.message
    | .ok ts   => .success (" ".intercalate ts ++ "\n") [preprocessed text ts]

/-- Compiles a program; its bytes go to the output file. -/
def runCompile (input output : String) (content : Except String (List UInt8)) : Outcome :=
  match sourceText input content with
  | .error e => .done (.failure [] e)
  | .ok text =>
    match compileLogged input text with
    | (log, none)      => .done ⟨1, "", log⟩
    | (log, some code) =>
      .write output code fun
        | some e => .failure log ("failed to write " ++ output ++ ": " ++ e)
        | none   =>
          .success "" (log ++ [⟨.info, "Compiled " ++ input ++ " -> " ++ output ++ " ("
            ++ Nat.repr code.length ++ " bytes)"⟩])

/-- Prints the listing of a compiled program. -/
def runListing (input : String) (content : Except String (List UInt8)) : Report :=
  match content with
  | .error e => .failure [] ("cannot read " ++ input ++ ": " ++ e)
  | .ok code =>
    match Proviso.listing code.toArray with
    | .error f  => .failure [] f.message
    | .ok lines => .success (String.join (lines.map (· ++ "\n"))) []

/-- What a transfer reports. -/
def notice? (r : Request) : Option Record :=
  match r.call with
  | .sendNative sender receiver amount =>
      some ⟨.debug, r.opcode.mnemonic ++ " " ++ amount.toDecimal ++ " from " ++ sender.toHex
        ++ " to " ++ receiver.toHex⟩
  | .tokenTransfer token sender receiver amount =>
      some ⟨.debug, r.opcode.mnemonic ++ " " ++ amount.toDecimal ++ " of " ++ token.toHex
        ++ " from " ++ sender.toHex ++ " to " ++ receiver.toHex⟩
  | .tokenTransferFrom .. | .mint .. | .burn .. => none

/-- What a run reports. -/
def runLog (result : Except Fault Unit) (m : Machine Storage) : List Record :=
  m.work.journal.reverse.filterMap notice? ++
    match result with
    | .ok () =>
        [⟨.debug, "execution finished: " ++ Nat.repr m.program.length ++ " bytes, stack depth "
          ++ Nat.repr m.work.stack.depth⟩]
    | .error f =>
        [⟨.warn, "execution halted at " ++ Nat.repr m.program.pc ++ " (" ++ f.reason.title
          ++ "): " ++ f.message⟩]

/-- The topmost cell and whether it counts as true. -/
def renderTop : Option Cell → String
  | some c => "top: " ++ c.render ++ "\ncondition: " ++ boolText c.isTruthy ++ "\n"
  | none   => "condition: false (empty stack)\n"

/-- One line for each slot that was written. -/
def renderStorage (s : Storage) : String :=
  String.join (s.entries.map fun e =>
    e.1.1.toHex ++ " " ++ e.1.2.toHex ++ " = " ++ e.2.toHex ++ "\n")

/-- Compiles a program, runs it and prints what it leaves. -/
def runProgram (limits : Limits) (input : String) (o : RunOptions)
    (content : Except String (List UInt8)) : Report :=
  match sourceText input content with
  | .error e => .failure [] e
  | .ok text =>
    match compileLogged input text with
    | (log, none)      => ⟨1, "", log⟩
    | (log, some code) =>
      let (result, m) := runCode code o.account limits o.storage o.host
      let log := log ++ runLog result m
      match result with
      | .ok ()   => .success (renderTop m.top? ++ renderStorage m.work.store) log
      | .error f => .failure log (f.message ++ " (" ++ f.reason.title ++ ")")

/-- Keeps the records that a log level keeps, in every report that may come. -/
def Outcome.filtered (level : Level) : Outcome → Outcome
  | .done r                  => .done (r.filtered level)
  | .write path bytes report => .write path bytes fun e => (report e).filtered level

/-- Carries out a command, given what its input file holds or why it could not be read. -/
def execute (c : Config) (cmd : Command) (content : Except String (List UInt8)) : Outcome :=
  Outcome.filtered c.level <|
    match cmd with
    | .tokens input         => .done (runTokens input content)
    | .compile input output => runCompile input output content
    | .listing input        => .done (runListing input content)
    | .run input options    => .done (runProgram c.limits input options content)

end Command

end Proviso
