import Proviso.Assembly.Link
import Proviso.Source.Body
import Proviso.Source.Call
import Proviso.Source.Numeral
import Proviso.Source.Postfix
import Proviso.Source.Sugar

/-!
# From text to bytes

A text is cut into tokens, its numerals made plain, its expressions put into postfix order, its
shorthands and calls written out, and its bodies moved behind the main block. What comes out is
assembled.
-/

namespace Proviso

/-- The tokens that an assembly is read from. -/
def preprocess (reg : Registry) (text : String) : Except CompileError (List Token) := do
  let tokens ← Token.tokenize text
  let tokens ← Numeral.normalize tokens
  let tokens ← Postfix.convert reg tokens
  let tokens ← Sugar.expand tokens
  let tokens ← Call.expand tokens
  Body.hoist reg tokens

/-- The bytes of a list of tokens. -/
def assemble (tokens : List Token) : Except CompileError (List UInt8) := do
  (← Assembly.ofTokens .standard tokens).link

/-- Tokens have bytes if they can be read as an assembly that links. -/
theorem assemble_eq_ok {tokens : List Token} {code : List UInt8} (h : assemble tokens = .ok code) :
    ∃ a : Assembly, Assembly.ofTokens .standard tokens = .ok a ∧ a.link = .ok code := by
  unfold assemble at h
  cases ha : Assembly.ofTokens .standard tokens with
  | error e =>
    rw [ha] at h
    cases h
  | ok a =>
    rw [ha] at h
    exact ⟨a, rfl, h⟩

/-- The bytes of a text. -/
def compile (text : String) : Except CompileError (List UInt8) := do
  assemble (← preprocess .standard text)

end Proviso
