import Proviso.Machine.Run
import Proviso.Source.Compile

/-!
# Evaluation

Compiles a text and runs it. Writes to storage land as they happen, or, in a staged evaluation,
only once the run has succeeded; calls to the host stand in both cases.
-/

namespace Proviso

/-- Why a text has no value. -/
inductive EvalError where
  | compile (e : CompileError)
  | fault (f : Fault)
  deriving DecidableEq

/-- The message of an error, which says at which stage it came up. -/
def EvalError.message : EvalError → String
  | .compile e => "compile error: " ++ e.message
  | .fault f   => "execution error: " ++ f.message

/-- What a run leaves: the topmost cell or a fault, the store, the host, and the requests made of
the host, the latest first. -/
structure Evaluation (σ : Type) where
  result : Except EvalError (Option Cell)
  store : σ
  host : Host
  journal : List Request

/-- Whether a condition holds: the topmost cell counts as true. -/
def holds (top : Option Cell) : Bool :=
  match top with
  | some c => c.isTruthy
  | none   => false

/-- The machine after a run of `code` by `account`, and how the run ended. -/
def runCode {σ : Type} [Store σ] (code : List UInt8) (account : Address) (limits : Limits)
    (store : σ) (host : Host) : Except Fault Unit × Machine σ :=
  ((Machine.fresh account limits store host).load code.toArray).run

/-- Compiles a text and runs it as `account`. -/
def evaluate {σ : Type} [Store σ] (text : String) (account : Address) (limits : Limits)
    (store : σ) (host : Host) : Evaluation σ :=
  match compile text with
  | .error e => ⟨.error (.compile e), store, host, []⟩
  | .ok code =>
    match runCode code account limits store host with
    | (.ok (), m)   => ⟨.ok m.top?, m.work.store, m.work.host, m.work.journal⟩
    | (.error f, m) => ⟨.error (.fault f), m.work.store, m.work.host, m.work.journal⟩

/-- Like `evaluate`, but a run that fails leaves the store as it was. -/
def evaluateStaged {σ : Type} [Store σ] (text : String) (account : Address) (limits : Limits)
    (store : σ) (host : Host) : Evaluation σ :=
  let e := evaluate text account limits (Overlay.ofBase store) host
  match e.result with
  | .ok top    => ⟨.ok top, e.store.commit, e.host, e.journal⟩
  | .error err => ⟨.error err, store, e.host, e.journal⟩

end Proviso
