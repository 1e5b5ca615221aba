import OnePage.Assembly
import OnePage.Derivation
import OnePage.Token.Scan

/-!
# Compilation

The stages in order: scan, parse, analyse, generate. The first error ends the compilation, and the
events of all stages that ran follow each other.

Specification: sections 2 and 7.
-/

namespace OnePage

/-- The error of a stage. -/
inductive CompileError where
  | scan (error : ScanError)
  | parse (error : ParseError)
  | analysis (error : AnalysisError)
  | code (error : CodeError)
  deriving DecidableEq

namespace CompileError

/-- The text of the error itself. -/
def cause : CompileError → String
  | scan e => e.message
  | parse e => e.message
  | analysis e => e.message
  | code e => e.message

/-- The text that reports an error with its stage. -/
def message (e : CompileError) : String :=
  let stage := match e with
    | scan _ => "lex error: "
    | parse _ => "parse error: "
    | analysis _ => "semantic error: "
    | code _ => "code generation error: "
  stage ++ e.cause

end CompileError

/-- All that a compilation makes. -/
structure Artifact where
  tokens : List Token
  program : Forest Node
  analysis : Analysis
  image : Executable

namespace Report

variable {ε δ α β : Type}

/-- A report whose error is seen as one of another type. -/
def mapError (f : ε → δ) (r : Report ε α) : Report δ α :=
  { result := r.result.mapError f, events := r.events }

/-- Go on with the result of a report, if it has one. -/
def andThen (r : Report ε α) (next : α → Report ε β) : Report ε β :=
  match r.result with
  | .error e => { result := .error e, events := r.events }
  | .ok a => { result := (next a).result, events := r.events ++ (next a).events }

end Report

/-- Compile a source text. -/
def compile (source : String) : Report CompileError Artifact :=
  (((Scan.ofSource source).report.mapError .scan).andThen fun tokens ↦
    ((parse tokens).mapError .parse).andThen fun program ↦
      ((analyze program).mapError .analysis).andThen fun analysis ↦
        ((generate analysis).mapError .code).andThen fun image ↦
          { result := .ok { tokens, program, analysis, image }
            events := [{ phase := .codeGen, severity := .message,
                         text := "compilation finished" }] })

end OnePage
